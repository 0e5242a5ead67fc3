import ClassPack.Proofs.Copying
import ClassPack.Proofs.FileSystem.Repeating

/-!
# Recopying — copies made again where some of them are there already

* `Retraces reached hs fs gs` — `gs` is in between `fs` and what comes of it in the end, and as `fs`
  where the sources of the copies are;
* `copyFile_again` — a copy that went well in `fs` goes well in `gs`, and what it leaves retraces
  what it left; and so do many copies (`copyAll_again`, `collect_again`) and those of a manifest
  (`copyAuxFiles_again`);
* `isSameFile_again` — a file that was copied is not taken to be there already.
-/

namespace ClassPack

open FileSystem

variable {fs gs hs : FileSystem} {q t : Place} {w w' v : Workshop} {source target : String}
  {reached : Place → Prop}

/-- A state in between `fs` and what comes of it in the end, the same where the sources of the
copies are. -/
structure Retraces (reached : Place → Prop) (hs fs gs : FileSystem) :
    Prop extends Between fs gs hs where
  same : ∀ q, reached q → gs.at? q = fs.at? q

namespace Retraces

variable (h : Retraces reached hs fs gs)

include h

theorem leadsTo_iff {text : Path} : gs.LeadsTo text q ↔ fs.LeadsTo text q := h.left.leadsTo_iff

/-- The same file delivered to both. -/
theorem delivered {fs₁ gs₁ : FileSystem} {content : Content} (grown : fs₁.Grows hs)
    (made : Delivers t content fs fs₁) (made' : Delivers t content gs gs₁) :
    Retraces reached hs fs₁ gs₁ where
  toBetween := h.toBetween.delivered grown made made'
  same q reach := by rw [made'.at?, made.at?, h.same q reach]

end Retraces

/-! ## One file -/

/-- A copy that went well, and whose file is there in the end, goes well in between. -/
theorem copyFile_between (h : Between w.files v.files hs)
    (copied : copyFile source target w = .ok () w') (grown : w'.files.Grows hs)
    (starts : w.files.Starts (Utf8.encode source)) (steady : w.files.Steady (Utf8.encode target)) :
    ∃ v', copyFile source target v = .ok () v' := by
  unfold copyFile at copied ⊢
  obtain ⟨_, w₀, logged, copied⟩ := bind_eq_ok.1 copied
  obtain ⟨v₀, logged', same'⟩ := Work.log_ok .trace s!"copy {source} -> {target}" v
  have same := Work.files_of_log logged
  rw [bind_of_ok logged']
  rw [← same, ← same'] at h
  rw [← same] at starts steady
  cases up : Path.parent? (Utf8.encode target) with
  | none =>
      rw [up] at copied
      obtain ⟨_, final⟩ := h.copy_again starts steady.starts (Work.files_eq_ok copied) grown
      exact ⟨_, Work.files_of_ok final⟩
  | some upper =>
      rw [up] at copied
      obtain ⟨_, w₁, made, copied⟩ := bind_eq_ok.1 copied
      have made := Work.files_eq_ok made
      have copied := Work.files_eq_ok copied
      obtain ⟨_, _, _, _, writes, wrote, _⟩ := copy_ok copied
      have rest : w₁.files.Grows hs := (wrote.grows writes.free).trans grown
      have within : w₀.files.Within w₁.files := by
        simpa [made] using (createDirs_made upper w₀.files).grows.toWithin
      obtain ⟨gs₁, made', between⟩ := h.createDirs_again (steady.parent? up) made rest
      obtain ⟨_, final⟩ :=
        between.copy_again (starts.of_within within) (steady.starts.of_within within) copied grown
      exact ⟨_, bind_eq_ok.2 ⟨(), _, Work.files_of_ok made', Work.files_of_ok final⟩⟩

theorem copyFile_again (h : Retraces reached hs w.files v.files)
    (copied : copyFile source target w = .ok () w') (grown : w'.files.Grows hs)
    (starts : w.files.Starts (Utf8.encode source)) (steady : w.files.Steady (Utf8.encode target))
    (origin : ∀ o, w.files.LeadsTo (Utf8.encode source) o → reached o) :
    ∃ v', copyFile source target v = .ok () v' ∧ Retraces reached hs w'.files v'.files := by
  have within := h.left.toWithin
  obtain ⟨v', again⟩ := copyFile_between h.toBetween copied grown starts steady
  obtain ⟨d, source₁, target₁, made⟩ := copyFile_ok copied starts steady
  obtain ⟨e, source₂, target₂, made'⟩ :=
    copyFile_ok again (starts.of_within within) (steady.of_within within)
  -- Both copy from the same place to the same place,
  have origins : w.files.LeadsTo (Utf8.encode source) d.origin ∧
      w.files.LeadsTo (Utf8.encode source) e.origin :=
    ⟨made.delivers.toGrows.leadsTo_iff.1 (source₁ ▸ made.source.leads),
      h.leadsTo_iff.1 (made'.delivers.toGrows.leadsTo_iff.1 (source₂ ▸ made'.source.leads))⟩
  have places : d.place = e.place :=
    (made.delivers.toGrows.leadsTo_iff.1 (target₁ ▸ made.target.leads)).unique
      (h.leadsTo_iff.1 (made'.delivers.toGrows.leadsTo_iff.1 (target₂ ▸ made'.target.leads)))
  -- and there is the same to be copied.
  have contents : d.content = e.content := by
    have first := made.content
    have second := made'.content
    rw [← origins.1.unique origins.2, ← places, h.same _ (origin _ origins.1)] at second
    split at first
    · rename_i self
      rw [if_pos self] at second
      rw [first, second]
    · rename_i other
      rw [if_neg other, first] at second
      simpa using second
  exact ⟨v', again, h.delivered grown made.delivers (places ▸ contents ▸ made'.delivers)⟩

/-! ## Many files -/

section Many

variable {sourceRoot targetRoot : String} {paths : List String}

theorem copyAll_again (h : Retraces reached hs w.files v.files)
    (copied : copyAll sourceRoot targetRoot paths w = .ok () w') (grown : w'.files.Grows hs)
    (starts : w.files.Starts (Utf8.encode sourceRoot))
    (steady : w.files.Steady (Utf8.encode targetRoot))
    (descends : ∀ path ∈ paths, Path.Descends (Utf8.encode path))
    (origin : ∀ path ∈ paths, ∀ o, w.files.LeadsTo (Utf8.encode (joinText sourceRoot path)) o →
      reached o) :
    ∃ v', copyAll sourceRoot targetRoot paths v = .ok () v' ∧
      Retraces reached hs w'.files v'.files := by
  induction paths generalizing w v with
  | nil =>
      cases copied
      exact ⟨v, rfl, h⟩
  | cons path rest ih =>
      obtain ⟨down, downs⟩ := List.forall_mem_cons.1 descends
      obtain ⟨own, others⟩ := List.forall_mem_cons.1 origin
      rw [copyAll] at copied
      obtain ⟨_, w₁, first, later⟩ := bind_eq_ok.1 copied
      obtain ⟨_, _, _, made⟩ := copyFile_ok first (starts.joinText down) (steady.joinText down)
      have grown₁ := made.delivers.toGrows
      have starts₁ := starts.of_within grown₁.toWithin
      have steady₁ := steady.of_within grown₁.toWithin
      obtain ⟨_, copies, _⟩ := copyAll_ok later starts₁ steady₁ downs
      obtain ⟨v₁, first', h₁⟩ :=
        copyFile_again h first (copies.grows.trans grown) (starts.joinText down)
        (steady.joinText down) own
      obtain ⟨v', later', h'⟩ := ih h₁ later starts₁ steady₁ downs fun path there o leads =>
        others path there o (grown₁.leadsTo_iff.1 leads)
      exact ⟨v', bind_eq_ok.2 ⟨(), v₁, first', later'⟩, h'⟩

/-- If the same files are found, they are copied again. -/
theorem collect_again {pattern : ArtifactPattern} {v₁ : Workshop}
    (h : Retraces reached hs w.files v.files)
    (collected : collect sourceRoot pattern targetRoot w = .ok paths w') (grown : w'.files.Grows hs)
    (starts : w.files.Starts (Utf8.encode sourceRoot))
    (steady : w.files.Steady (Utf8.encode targetRoot))
    (origin : ∀ path, Path.Descends (Utf8.encode path) →
      ∀ o, w.files.LeadsTo (Utf8.encode (joinText sourceRoot path)) o → reached o)
    (search : findMatches sourceRoot pattern v = .ok paths v₁) :
    ∃ v', collect sourceRoot pattern targetRoot v = .ok paths v' ∧
      Retraces reached hs w'.files v'.files := by
  obtain ⟨w₁, first⟩ := findMatches_of_collect collected
  obtain ⟨w₂, same, collects⟩ := collect_of_findMatches targetRoot first
  obtain ⟨v₂, same', collects'⟩ := collect_of_findMatches targetRoot search
  obtain ⟨_, w₃, copied, last⟩ := bind_eq_ok.1 (collects.symm.trans collected)
  cases last
  rw [← same, ← same'] at h
  rw [← same] at starts steady origin
  have descends : ∀ path ∈ paths, Path.Descends (Utf8.encode path) := fun path there =>
    descends_of_relative (relative_of_findMatches first path there)
  obtain ⟨v', copied', h'⟩ := copyAll_again h copied grown starts steady descends fun path there =>
    origin path (descends path there)
  exact ⟨v', collects'.trans (bind_of_ok copied'), h'⟩

end Many

/-! ## The manifest -/

/-- If a file was copied, and later is its own target, it was so before: to be read it had to be
there, and then there was nothing left to be made. -/
theorem isSameFile_again (copied : copyFile source target w = .ok () w')
    (starts : w.files.Starts (Utf8.encode source)) (steady : w.files.Steady (Utf8.encode target))
    (more : w.files.Grows fs) (same : isSameFile fs source target = true) :
    isSameFile w.files source target = true := by
  obtain ⟨mid, made, _, ⟨_, _, failed, _⟩ | ⟨_, _, copied⟩⟩ := copyFile_cases source target w
  · simp [copied] at failed
  obtain ⟨s, t, content, reads, writes, _⟩ := copy_ok copied
  obtain ⟨p, leads, leads', _⟩ := arrives_of_isSameFile same
  have toward := more.leadsTo_iff.1 leads'
  obtain rfl : s = p := (made.grows.leadsTo_iff.1 reads.leads).unique (more.leadsTo_iff.1 leads)
  obtain rfl : t = s := (made.grows.leadsTo_iff.1 writes.leads).unique toward
  have starts' := starts.of_within made.grows.toWithin
  obtain ⟨_, resolved⟩ := reads
  have way := (resolve_eq_ok_iff.1 resolved).2
  have stands : mid.at? t ≠ none := at?_ne_none_of_follow starts' way
  obtain ⟨content, file⟩ := writes.free.resolve_left stands
  have there : w.files.at? t = some (.file content) := by
    rcases made.at? t with kept | ⟨_, new, _⟩
    · rw [← kept, file]
    · simp [file] at new
  obtain rfl : mid = w.files := made.eq_of_there steady toward (by simp [there])
  obtain ⟨_, resolved'⟩ := writes.arrives (.refl _) steady.starts file
  unfold isSameFile at same ⊢
  rwa [canonical?_eq_of_follow more.toWithin starts way,
    canonical?_eq_of_follow more.toWithin steady.starts (resolve_eq_ok_iff.1 resolved').2] at same

section Manifest

variable {sourceRoot stagingDir workingDir : String} {files : List AuxFile} {f : AuxFile}

theorem copyAuxFile_again (h : Retraces reached hs w.files v.files)
    (copied : copyAuxFile sourceRoot stagingDir workingDir f w = .ok () w')
    (grown : w'.files.Grows hs)
    (starts : w.files.Starts (Utf8.encode (joinText sourceRoot f.source)))
    (steady : w.files.Steady (Utf8.encode (f.destination stagingDir workingDir)))
    (origin : ∀ o, w.files.LeadsTo (Utf8.encode (joinText sourceRoot f.source)) o → reached o) :
    ∃ v', copyAuxFile sourceRoot stagingDir workingDir f v = .ok () v' ∧
      Retraces reached hs w'.files v'.files := by
  by_cases own : isSameFile w.files (joinText sourceRoot f.source)
    (f.destination stagingDir workingDir) = true
  · obtain ⟨w₁, done, same⟩ := copyAuxFile_of_same own
    cases done.symm.trans copied
    obtain ⟨v', done', same'⟩ :=
      copyAuxFile_of_same (isSameFile_of_within h.left.toWithin starts steady.starts own)
    exact ⟨v', done', by rw [same, same']; exact h⟩
  · obtain ⟨w₁, same, copies⟩ := copyAuxFile_of_other own
    rw [copies] at copied
    rw [← same] at h starts steady origin own
    have other : isSameFile v.files (joinText sourceRoot f.source)
        (f.destination stagingDir workingDir) ≠ true :=
      fun meets => own (isSameFile_again copied starts steady h.left meets)
    obtain ⟨v₁, same', copies'⟩ := copyAuxFile_of_other other
    rw [copies']
    exact copyFile_again (by rw [same']; exact h) copied grown starts steady origin

theorem copyAuxFiles_again (h : Retraces reached hs w.files v.files)
    (copied : forM files (copyAuxFile sourceRoot stagingDir workingDir) w = .ok () w')
    (grown : w'.files.Grows hs) (starts : ∀ f ∈ files,
      w.files.Starts (Utf8.encode (joinText sourceRoot f.source)))
    (steady : ∀ f ∈ files, w.files.Steady (Utf8.encode (f.destination stagingDir workingDir)))
    (origin : ∀ f ∈ files, ∀ o, w.files.LeadsTo (Utf8.encode (joinText sourceRoot f.source)) o →
      reached o) :
    ∃ v', forM files (copyAuxFile sourceRoot stagingDir workingDir) v = .ok () v' ∧
      Retraces reached hs w'.files v'.files := by
  induction files generalizing w v with
  | nil =>
      cases copied
      exact ⟨v, rfl, h⟩
  | cons f rest ih =>
      obtain ⟨starts, startsAll⟩ := List.forall_mem_cons.1 starts
      obtain ⟨steady, steadyAll⟩ := List.forall_mem_cons.1 steady
      obtain ⟨origin, originAll⟩ := List.forall_mem_cons.1 origin
      rw [List.forM_cons] at copied
      obtain ⟨_, w₁, first, later⟩ := bind_eq_ok.1 copied
      have grown₁ : w.files.Grows w₁.files := by
        simpa [first] using (copyAuxFile_fills sourceRoot stagingDir workingDir f w steady).toGrows
      have starts₁ := fun g there => (startsAll g there).of_within grown₁.toWithin
      have steady₁ := fun g there => (steadyAll g there).of_within grown₁.toWithin
      have rest : w₁.files.Grows w'.files := by
        simpa [later] using (copyAuxFiles_fills rest w₁ starts₁ steady₁).toGrows
      obtain ⟨v₁, first', h₁⟩ := copyAuxFile_again h first (rest.trans grown) starts steady origin
      obtain ⟨v', later', h'⟩ := ih h₁ later starts₁ steady₁ fun g there o leads =>
        originAll g there o (grown₁.leadsTo_iff.1 leads)
      exact ⟨v', bind_eq_ok.2 ⟨(), v₁, first', later'⟩, h'⟩

end Manifest

end ClassPack
