import ClassPack.Proofs.Staging

/-!
# Archiving — what an archiver may change

* `PacksTo archive fs gs` — all that changed is the archive itself or a new directory above it;
* `Archiver.KeepsTo` — an archiver that never does more; `zipArchiver_keepsTo`, and
  `jarArchiver_keepsTo` for a program that touches nothing but the archive;
* `zipArchiver_cases` — what the archive holds that the library makes itself;
* `Archiver.Trusted` — the two archivers that a run is given.
-/

namespace ClassPack

open FileSystem

variable {fs gs hs : FileSystem} {q t : Place} {text : Path} {w w' : Workshop}
  {staged archive : String}

theorem FileSystem.Grows.names_iff (h : fs.Grows gs) : gs.Names text q ↔ fs.Names text q := by
  constructor
  · rintro (⟨steps, noSlash, front⟩ | ⟨ends, leads⟩)
    · rw [h.workingDir] at front
      exact .entry steps noSlash (h.leads_iff.1 front)
    · exact .through ends (h.leadsTo_iff.1 leads)
  · rintro (⟨steps, noSlash, front⟩ | ⟨ends, leads⟩)
    · rw [← h.workingDir] at front
      exact .entry steps noSlash (h.leads_iff.2 front)
    · exact .through ends (h.leadsTo_iff.2 leads)

/-- A place that is meant by a text, as what it leads to or as what it names itself. A text with a
zero byte means nothing. -/
def FileSystem.Means (fs : FileSystem) (text : Path) (q : Place) : Prop :=
  0 ∉ text ∧ (fs.LeadsTo text q ∨ fs.Names text q)

theorem FileSystem.Grows.means_iff (h : fs.Grows gs) : gs.Means text q ↔ fs.Means text q := by
  unfold Means
  rw [h.leadsTo_iff, h.names_iff]

/-- What a text means is gone or a file now; all else is as it was. -/
structure TouchesOnly (text : Path) (fs gs : FileSystem) : Prop where
  workingDir : gs.workingDir = fs.workingDir
  limits : gs.limits = fs.limits
  at? : ∀ q, gs.at? q = fs.at? q ∨
    fs.Means text q ∧ (gs.at? q = none ∨ ∃ content, gs.at? q = some (.file content))

/-- Besides what a text means, directories on its way may be new. -/
structure PacksTo (text : Path) (fs gs : FileSystem) : Prop where
  workingDir : gs.workingDir = fs.workingDir
  limits : gs.limits = fs.limits
  at? : ∀ q, gs.at? q = fs.at? q ∨
    (fs.at? q = none ∧ gs.at? q = some .directory ∧ fs.OnWay text q) ∨
    fs.Means text q ∧ (gs.at? q = none ∨ ∃ content, gs.at? q = some (.file content))

/-- An archiver that changes nothing but the archive and what is missing above it. -/
def Archiver.KeepsTo (a : Archiver) : Prop :=
  ∀ staged archive w, PacksTo (Utf8.encode archive) w.files (leftBy (a.pack staged archive w)).files

/-- An executor whose runs of `jar` change nothing but the archive. -/
def Executor.KeepsTo (e : Executor) : Prop :=
  ∀ staged archive fs, TouchesOnly (Utf8.encode archive) fs (e.run (jarCall staged archive) fs).2

theorem TouchesOnly.packsTo (made : MadeOnWay text fs gs) (h : TouchesOnly text gs hs) :
    PacksTo text fs hs where
  workingDir := h.workingDir.trans made.workingDir
  limits := h.limits.trans made.limits
  at? q := by
    rcases h.at? q with same | ⟨touched, new⟩
    · rcases made.at? q with same' | ⟨missing, new, onWay⟩
      · exact .inl (same.trans same')
      · exact .inr (.inl ⟨missing, same.trans new, onWay⟩)
    · refine .inr (.inr ⟨?_, new⟩)
      rwa [← made.grows.means_iff]

theorem TouchesOnly.refl (text : Path) (fs : FileSystem) :
    TouchesOnly text fs fs := ⟨rfl, rfl, fun _ => .inl rfl⟩

theorem TouchesOnly.of_wrote {content : Content} (writes : fs.WritesAt text t)
    (h : Wrote t content fs gs) : TouchesOnly text fs gs where
  workingDir := h.workingDir
  limits := h.limits
  at? q := by
    rw [h.at?]
    split
    · rename_i here
      exact .inr ⟨⟨writes.noZero, .inl (here ▸ writes.leads)⟩, .inr ⟨content, rfl⟩⟩
    · exact .inl rfl

/-! ## The archivers -/

theorem makeArchiveDirs_made (archive : String) (w : Workshop) :
    MadeOnWay (Utf8.encode archive) w.files (leftBy (makeArchiveDirs archive w)).files := by
  unfold makeArchiveDirs
  cases up : Path.parent? (Utf8.encode archive) with
  | none => exact .refl _ _
  | some parent =>
      simp only
      rw [Work.leftBy_files]
      exact createDirs_parent_made up w.files

theorem Work.leftBy_call (e : Executor) (call : Invocation) (w : Workshop) :
    (leftBy (Work.call e call w)).files = (e.run call w.files).2 := by
  unfold Work.call
  split
  · rename_i done
    simp [done]
  · rename_i failed
    simp [failed]

theorem jarArchiver_keepsTo {e : Executor} (h : e.KeepsTo) : (jarArchiver e).KeepsTo := by
  intro staged archive w
  have made := makeArchiveDirs_made archive w
  dsimp only [jarArchiver]
  cases dirs : makeArchiveDirs archive w with
  | error failure w₁ =>
      rw [dirs] at made
      rw [bind_of_error dirs]
      exact (TouchesOnly.refl _ _).packsTo made
  | ok _ w₁ =>
      rw [dirs] at made
      rw [bind_of_ok dirs]
      refine TouchesOnly.packsTo made ?_
      -- Whatever the program reports, it has run.
      have touches := h staged archive w₁.files
      rw [← Work.leftBy_call] at touches
      cases called : Work.call e (jarCall staged archive) w₁ with
      | error failure w₂ =>
          rw [bind_of_error called]
          rwa [called] at touches
      | ok output w₂ =>
          rw [bind_of_ok called]
          rw [called] at touches
          split <;> exact touches

/-- Once the archive is open, the library's own archiver fills it with what comes before the tree
and what the tree gives, and it is done if the tree gives no fault. -/
theorem zipArchiver_of_open (staged : String) {site : Place × Name} {w₁ : Workshop}
    (dirs : makeArchiveDirs archive w = .ok () w₁)
    (opening : openForWriting (Utf8.encode archive) w₁.files = .ok site gs) :
    let packed := packListing gs staged (gs.listing (Utf8.encode staged))
    Wrote (site.1 ++ [site.2]) (.ofEntries (prologue gs staged ++ packed.entries)) w₁.files
        (leftBy (zipArchiver.pack staged archive w)).files ∧
      ((∃ w', zipArchiver.pack staged archive w = .ok () w') ↔ packed.fault = none) := by
  intro packed
  obtain ⟨filled, result⟩ := wrote_fill (.ofEntries (prologue gs staged ++ packed.entries)) opening
  dsimp only [zipArchiver]
  rw [bind_of_ok dirs, bind_of_ok (Work.files_of_ok opening),
    bind_of_ok (show Work.view _ _ = .ok _ _ from rfl),
    bind_of_ok (show Work.view _ _ = .ok _ _ from rfl), bind_of_ok (Work.files_of_ok filled),
    bind_of_ok (show Work.logAll _ _ _ = .ok () _ from rfl)]
  cases fault : packed.fault with
  | some fault => exact ⟨result, by rintro ⟨_, ⟨⟩⟩, by rintro ⟨⟩⟩
  | none => exact ⟨result, fun _ => rfl, fun _ => ⟨_, rfl⟩⟩

/-- The library's own archiver makes the directories above, and then opens the archive; what it puts
there is made of the staged tree as it is at that moment. -/
theorem zipArchiver_cases (staged archive : String) (w : Workshop) :
    ∃ mid, MadeOnWay (Utf8.encode archive) w.files mid ∧
      ((∃ e w', zipArchiver.pack staged archive w = .error e w' ∧ w'.files = mid) ∨
        ∃ t opened, mid.WritesAt (Utf8.encode archive) t ∧ Wrote t (.plain []) mid opened ∧
          let packed := packListing opened staged (opened.listing (Utf8.encode staged))
          Wrote t (.ofEntries (prologue opened staged ++ packed.entries)) mid
              (leftBy (zipArchiver.pack staged archive w)).files ∧
            ∀ w', zipArchiver.pack staged archive w = .ok () w' → packed.fault = none) := by
  have made := makeArchiveDirs_made archive w
  cases dirs : makeArchiveDirs archive w with
  | error failure w₁ =>
      rw [dirs] at made
      exact ⟨w₁.files, made, .inl ⟨failure, w₁, bind_of_error dirs, rfl⟩⟩
  | ok _ w₁ =>
      rw [dirs] at made
      refine ⟨w₁.files, made, ?_⟩
      cases opening : openForWriting (Utf8.encode archive) w₁.files with
      | error failure gs =>
          have failed := openForWriting_error opening
          exact .inl ⟨.io failure, { w₁ with files := gs },
            (bind_of_ok dirs).trans (bind_of_error (by simp [Work.files, opening])), failed⟩
      | ok site gs =>
          -- The archive is open and empty while the tree is listed.
          obtain ⟨writes, wrote, _⟩ := openForWriting_ok opening
          obtain ⟨filled, done⟩ := zipArchiver_of_open staged dirs opening
          exact .inr ⟨_, gs, writes, wrote, filled, fun w' packed => done.1 ⟨w', packed⟩⟩

theorem zipArchiver_keepsTo : zipArchiver.KeepsTo := by
  intro staged archive w
  obtain ⟨mid, made, ⟨_, _, failed, rfl⟩ | ⟨t, _, writes, _, wrote, _⟩⟩ :=
    zipArchiver_cases staged archive w
  · rw [failed]
    exact (TouchesOnly.refl _ _).packsTo made
  · exact (TouchesOnly.of_wrote writes wrote).packsTo made

/-- The library's own archiver, or the program `jar` run by an executor that touches nothing but the
archive. -/
inductive Archiver.Trusted : Archiver → Prop where
  | zip : Trusted zipArchiver
  | jar {e : Executor} : e.KeepsTo → Trusted (jarArchiver e)

theorem Archiver.Trusted.keepsTo {a : Archiver} (h : a.Trusted) : a.KeepsTo := by
  cases h with
  | zip => exact zipArchiver_keepsTo
  | jar keeps => exact jarArchiver_keepsTo keeps

end ClassPack
