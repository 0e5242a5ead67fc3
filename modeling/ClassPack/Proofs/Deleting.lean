import ClassPack.Proofs.FileSystem.Planting
import ClassPack.Proofs.FileSystem.Repeating
import ClassPack.Proofs.FileSystem.Walking
import ClassPack.Proofs.Staging

/-!
# Deleting — how far a deletion reaches

* `FileSystem.Doomed` — what a deletion may take: the directory that a text names and all below it,
  or the link that it names;
* `FileSystem.lstat_of_removed` — a deletion that goes well leaves nothing under its text;
* `deletion_spares` — nothing else goes, whatever comes of it, and neither when the directory is
  made anew. What links lead to goes only if the text itself goes on behind them.
-/

namespace ClassPack

open FileSystem

namespace FileSystem

variable {fs gs : FileSystem} {p q d : Place} {text : Path} {n : Name}

/-! ## What may go -/

theorem Names.unique (h : fs.Names text p) (h' : fs.Names text q) : p = q := by
  cases h with
  | entry steps noSlash front =>
      cases h' with
      | entry steps' _ front' =>
          obtain ⟨rfl, last⟩ := List.append_inj' (steps.symm.trans steps') rfl
          obtain rfl : _ = _ := by simpa using last
          rw [front.unique front']
      | through ends _ =>
          rcases ends with slashed | noName
          · simp [noSlash] at slashed
          · exact absurd steps (noName _ _)
  | through ends leads =>
      cases h' with
      | entry steps noSlash _ =>
          rcases ends with slashed | noName
          · simp [noSlash] at slashed
          · exact absurd steps (noName _ _)
      | through _ leads' => exact leads.unique leads'

/-- What a deletion may take: the directory that a text names and all below it, or the link
that it names. -/
def Doomed (fs : FileSystem) (text : Path) (q : Place) : Prop :=
  ∃ d, fs.Names text d ∧
    (fs.at? d = some .directory ∧ d <+: q ∨ (∃ target, fs.at? d = some (.link target)) ∧ q = d)

/-- Of a link that a text names nothing goes but the link. -/
theorem Doomed.eq_of_link {target : Path} (h : fs.Doomed text q) (named : fs.Names text d)
    (link : fs.at? d = some (.link target)) : q = d := by
  obtain ⟨d', named', kind⟩ := h
  obtain rfl := named'.unique named
  rcases kind with ⟨directory, _⟩ | ⟨_, same⟩
  · simp [link] at directory
  · exact same

theorem TookAway.doomed (h : TookAway text fs gs) (q : Place) :
    gs.at? q = fs.at? q ∨ gs.at? q = none ∧ fs.Doomed text q := by
  rcases h.at? q with same | ⟨gone, d, named, below, directory | ⟨target, link⟩⟩
  · exact .inl same
  · exact .inr ⟨gone, d, named, .inl ⟨directory, below⟩⟩
  · by_cases here : q = d
    · exact .inr ⟨gone, d, named, .inr ⟨⟨target, link⟩, here⟩⟩
    · -- Below a link there is nothing.
      refine .inl (gone.trans (Eq.symm ?_))
      by_contra there
      simp [at?_of_above there below (Ne.symm here)] at link

theorem remove_within (fs : FileSystem) (p : Place) : (fs.remove p).Within fs := by
  have kept : ∀ {q e}, (fs.remove p).at? q = some e → fs.at? q = some e := fun {q e} there => by
    rw [at?_remove] at there
    split at there
    · cases there
    · exact there
  exact ⟨(remove_workingDir ..).symm, (remove_limits ..).symm,
    kept, fun there => ⟨_, kept there⟩, kept⟩

/-! ## What is left under the text -/

/-- What a text names where more is there it names where less is there, or there is an entry missing
on the way. -/
theorem locate_or_noEntry {target : Target} (h : fs.Within gs)
    (found : gs.locate text = .ok target) : fs.locate text = .ok target ∨
    fs.locate text = .error (.os .noEntry) := by
  unfold locate at found ⊢
  obtain ⟨_, fit, found⟩ := ok_of_bind found
  obtain ⟨⟨target', left⟩, there, found⟩ := ok_of_bind found
  cases found
  rw [← h.vet, fit, ← h.limits, ← h.workingDir]
  replace there := refused_ok there
  suffices same : fs.locateFrom gs.limits.links (text.origin gs.workingDir) text.segments
      text.endsInSlash = .ok (target', left) ∨
      fs.locateFrom gs.limits.links (text.origin gs.workingDir) text.segments text.endsInSlash =
        .error .noEntry by
    rcases same with same | missing
    · exact .inl (by rw [same]; rfl)
    · exact .inr (by rw [missing]; rfl)
  unfold locateFrom at there ⊢
  split at there
  · exact .inl there
  · rename_i last _
    obtain ⟨m, way, there⟩ := ok_of_bind there
    rcases follow_or_noEntry h way with same | missing
    · simp only [same, bind, Except.bind]
      cases last with
      | here =>
          obtain ⟨_, open_, there⟩ := ok_of_bind there
          exact .inl (by simpa [readable_of_more h open_] using there)
      | up =>
          obtain ⟨_, open_, there⟩ := ok_of_bind there
          exact .inl (by simpa [readable_of_more h open_] using there)
      | name n =>
          obtain ⟨_, open_, there⟩ := ok_of_bind there
          rcases enterable_or_noEntry h open_ with enter | gone
          · exact .inl (by simpa [enter, h.limits] using there)
          · exact .inr (by simp [gone])
    · exact .inr (by simp [missing, bind, Except.bind])

theorem lstat_of_locate_noEntry (h : fs.locate text = .error (.os .noEntry)) :
    fs.lstat text = .error (.os .noEntry) := by
  simp [lstat, h, bind, Except.bind]

theorem lstat_of_missing {slash : Bool} (found : fs.locate text = .ok (.entry d n slash))
    (missing : fs.at? (d ++ [n]) = none) : fs.lstat text = .error (.os .noEntry) := by
  simp [lstat, found, missing, bind, Except.bind]

/-- Once its entry is gone, a text names nothing. -/
theorem lstat_remove {slash : Bool} (found : fs.locate text = .ok (.entry d n slash)) :
    (fs.remove (d ++ [n])).lstat text = .error (.os .noEntry) := by
  rcases locate_or_noEntry (remove_within ..) found with same | missing
  · exact lstat_of_missing same (by simp [at?_remove])
  · exact lstat_of_locate_noEntry missing

theorem lstat_of_removeEmptyDir_noEntry (h : fs.removeEmptyDir text = .error (.os .noEntry)) :
    fs.lstat text = .error (.os .noEntry) := by
  unfold removeEmptyDir at h
  cases found : fs.locate text with
  | error e =>
      rw [found] at h
      exact lstat_of_locate_noEntry (by rw [found]; cases h; rfl)
  | ok target =>
      simp only [found, bind, Except.bind] at h
      split at h
      · cases h
      · cases h
      · cases h
      · rename_i dir n slash
        cases there : fs.at? (dir ++ [n]) with
        | none => exact lstat_of_missing found there
        | some e =>
            rw [there] at h
            cases e with
            | directory =>
                dsimp only at h
                split at h <;> cases h
            | file content => cases h
            | link target => cases h

theorem lstat_of_unlink_noEntry (h : fs.unlink text = .error (.os .noEntry)) :
    fs.lstat text = .error (.os .noEntry) := by
  unfold unlink at h
  cases found : fs.locate text with
  | error e =>
      rw [found] at h
      exact lstat_of_locate_noEntry (by rw [found]; cases h; rfl)
  | ok target =>
      simp only [found, bind, Except.bind] at h
      split at h
      · cases h
      · rename_i dir n slash
        cases there : fs.at? (dir ++ [n]) with
        | none => exact lstat_of_missing found there
        | some e =>
            rw [there] at h
            cases e with
            | directory => cases h
            | file content =>
                dsimp only at h
                split at h <;> cases h
            | link target =>
                dsimp only at h
                split at h <;> cases h

/-- A text that names a directory by a step that is no name leads to it. -/
theorem follow_of_locateFrom_node {links left : Nat} {s : List Segment} {slash : Bool}
    {last : Option Segment} (h : fs.locateFrom links p s slash = .ok (.node q last, left)) :
    fs.follow links p s = .ok ⟨q, left⟩ := by
  unfold locateFrom at h
  rcases List.eq_nil_or_concat' s with rfl | ⟨before, step, rfl⟩
  · cases h
    exact follow_nil ..
  · simp only [List.getLast?_concat, List.dropLast_concat] at h
    obtain ⟨m, way, h⟩ := ok_of_bind h
    rw [follow_append, way]
    cases step with
    | here =>
        obtain ⟨_, open_, h⟩ := ok_of_bind h
        cases h
        simp [follow, scan, open_]
    | up =>
        obtain ⟨_, open_, h⟩ := ok_of_bind h
        cases h
        simp [follow, scan, open_]
    | name n =>
        obtain ⟨_, _, h⟩ := ok_of_bind h
        split at h <;> cases h

theorem lookup_ne_noEntry_of_follow {m : Standing} (fit : fs.vet text = .ok ())
    (way : fs.follow fs.limits.links (text.origin fs.workingDir) text.segments = .ok m)
    (there : fs.at? m.place ≠ none) : fs.lookup text ≠ .error (.os .noEntry) := by
  have noName : ∀ n, Segment.name n ∉
      (if text.endsInSlash then [.here] else [] : List Segment) := by
    intro n
    split <;> simp
  obtain ⟨e, there⟩ := Option.ne_none_iff_exists'.1 there
  unfold lookup resolve
  rw [fit, Path.steps, follow_append, way]
  dsimp only
  -- A slash at the end only asks for a directory.
  cases last : fs.follow m.links m.place (if text.endsInSlash then [.here] else []) with
  | error fault =>
      rintro ⟨⟩
      exact follow_ne_noEntry noName last
  | ok m' =>
      rw [follow_slash_ok last]
      simp [refused, there, bind, Except.bind]

/-- What is there under a text and is no link is not missing where the text leads. -/
theorem lookup_ne_noEntry {e : Entry} (stat : fs.lstat text = .ok e)
    (plain : ∀ target, e ≠ .link target) : fs.lookup text ≠ .error (.os .noEntry) := by
  unfold lstat at stat
  obtain ⟨target, found, stat⟩ := ok_of_bind stat
  have fit : fs.vet text = .ok () := by
    unfold locate at found
    obtain ⟨_, fit, _⟩ := ok_of_bind found
    exact fit
  cases target with
  | node place last =>
      unfold locate at found
      obtain ⟨_, _, found⟩ := ok_of_bind found
      obtain ⟨⟨target, left⟩, located, found⟩ := ok_of_bind found
      cases found
      refine lookup_ne_noEntry_of_follow fit (follow_of_locateFrom_node (refused_ok located)) ?_
      intro missing
      simp [missing] at stat
  | entry dir n slash =>
      obtain ⟨before, left, steps, way, _, _, rfl⟩ := locate_entry found
      dsimp only at stat
      cases there : fs.at? (dir ++ [n]) with
      | none => simp [there] at stat
      | some e' =>
          rw [there] at stat
          dsimp only at stat
          split at stat
          · intro missing
            simp [missing, Except.map] at stat
          · cases stat
            refine lookup_ne_noEntry_of_follow fit (m := ⟨dir ++ [n], left⟩) ?_ (by simp [there])
            rw [steps, follow_append, way]
            exact follow_name_of_plain left there plain

theorem lstat_of_removeTree_noEntry (h : removeTree text fs = .error (.os .noEntry) gs) :
    gs.lstat text = .error (.os .noEntry) := by
  unfold removeTree at h
  split at h
  · rename_i e stat
    cases h
    exact stat
  · unfold atomically at h
    split at h
    · cases h
    · rename_i e removed
      cases h
      exact lstat_of_unlink_noEntry removed
  · rename_i e notLink stat
    split at h
    · rename_i found
      cases h
      exact absurd found (lookup_ne_noEntry stat notLink)
    · -- A directory that is missing when it has been emptied is no failure.
      dsimp only at h
      split at h
      · cases h
      · cases h
      · rename_i other _
        cases h
        exact absurd rfl other
    · cases h

/-- A deletion that goes well leaves nothing under its text. -/
theorem lstat_of_removed (h : removeTreeIfThere text fs = .ok () gs) :
    gs.lstat text = .error (.os .noEntry) := by
  unfold removeTreeIfThere at h
  split at h
  · rename_i left missing
    cases h
    exact lstat_of_removeTree_noEntry missing
  · unfold removeTree at h
    split at h
    · cases h
    · unfold atomically at h
      split at h
      · rename_i removed
        cases h
        obtain ⟨dir, n, e, found, _, _, _, rfl⟩ := unlink_ok removed
        exact lstat_remove found
      · cases h
    · split at h
      · cases h
      · rename_i standing found
        dsimp only at h
        split at h
        · rename_i removed
          cases h
          obtain ⟨dir, n, found, _, rfl⟩ := removeEmptyDir_ok removed
          exact lstat_remove found
        · rename_i missing
          cases h
          exact lstat_of_removeEmptyDir_noEntry missing
        · cases h
      · cases h

end FileSystem

/-! ## Deletions and directories made anew -/

/-- A deletion takes only the directory that its text names, with what lies below, or only the link
that it names, whether it goes well or not; when it goes well, there is nothing under the text any
more. Where a directory is made anew, nothing else goes either. -/
theorem deletion_spares (path : String) (w : Workshop) :
    (∀ q, (leftBy (removeDir path w)).files.at? q = w.files.at? q ∨
      (leftBy (removeDir path w)).files.at? q = none ∧ w.files.Doomed (Utf8.encode path) q) ∧
    (∀ w', removeDir path w = .ok () w' →
      w'.files.lstat (Utf8.encode path) = .error (.os .noEntry)) ∧
    (∀ q e, w.files.at? q = some e →
      (leftBy (recreateDir path w)).files.at? q = some e ∨ w.files.Doomed (Utf8.encode path) q) ∧
    ∀ d target, w.files.Names (Utf8.encode path) d → w.files.at? d = some (.link target) →
      ∀ q, w.files.Doomed (Utf8.encode path) q → q = d := by
  have taken := (without_tookAway w.files (Utf8.encode path)).doomed
  refine ⟨fun q => ?_, fun w' done => ?_, fun q e there =>
    ?_, fun d target named link q doomed => ?_⟩
  · rw [removeDir, Work.leftBy_files]
    exact taken q
  · exact lstat_of_removed (Work.files_eq_ok done)
  · rcases taken q with same | ⟨_, doomed⟩
    · rcases (recreateDir_made path w).at? q with stays | ⟨missing, _⟩
      · exact .inl (stays.trans (same.trans there))
      · exact absurd (missing.symm.trans (same.trans there)) (by simp)
    · exact .inr doomed
  · exact doomed.eq_of_link named link

/-- A game, and a link to it. -/
def mirroredGame : FileSystem :=
  (((empty {}).plant "/pz" .directory).plant "/pz/a.class" (holding "class")).plant "/lib"
    (linkTo "pz")

example :
    (leftBy (removeDir "/lib" ⟨mirroredGame, [], []⟩)).files.holds "/pz/a.class" "class" =
      true := by
  decide +kernel

/-- If the text goes on behind a link, the link stays, and what lies in the directory that it leads
to is taken. -/
theorem deletion_follows_last_link :
    mirroredGame.links = [Path.spelled (Utf8.encode "/lib")] ∧
      mirroredGame.holds "/pz/a.class" "class" = true ∧
      ∀ path ∈ ["/lib/", "/lib/."],
        ∀ left ∈ [leftBy (removeDir path ⟨mirroredGame, [], []⟩),
          leftBy (recreateDir path ⟨mirroredGame, [], []⟩)],
          left.files.links = [Path.spelled (Utf8.encode "/lib")] ∧
            left.files.holds "/pz/a.class" "class" = false := by
  decide +kernel

end ClassPack
