import ClassPack.Proofs.FileSystem.Making

/-!
# Removing — what is taken away, and what is not

* `Names fs text q` — what a call acts on that does not follow a last link;
* `TookAway text fs gs` — all that is gone lies at or below a directory or a link that the text
  names: `without_tookAway`, whether the call goes well or not;
* `not_isDir_of_removed` — a call that goes well leaves no directory under the text.
-/

namespace ClassPack
namespace FileSystem

variable {fs gs : FileSystem} {p q : Place} {text : Path}

/-! ## What a text names -/

/-- What a call acts on that does not follow a last link: the entry, if the text ends in its name,
and otherwise what the text leads to. -/
inductive Names (fs : FileSystem) (text : Path) : Place → Prop where
  | entry {before : List Segment} {n : Name} {dir : Place} :
      text.segments = before ++ [.name n] → text.endsInSlash = false →
        fs.Leads (text.origin fs.workingDir) before dir → Names fs text (dir ++ [n])
  | through {q : Place} :
      (text.endsInSlash = true ∨ ∀ before n, text.segments ≠ before ++ [.name n]) →
        fs.LeadsTo text q → Names fs text q

/-! ## Locating what resolves -/

/-- What a text resolves to is also found when its last step is not taken. -/
theorem locate_of_resolve {standing : Standing} (h : fs.resolve text = .ok standing) :
    (∃ last, fs.locate text = .ok (.node standing.place last) ∧
        ∀ before n, text.segments ≠ before ++ [.name n]) ∨
      ∃ dir n, fs.locate text = .ok (.entry dir n text.endsInSlash) ∧
        fs.at? (dir ++ [n]) ≠ none := by
  obtain ⟨fit, way⟩ := resolve_eq_ok_iff.1 h
  have stays : ∀ {links p}, fs.follow links p (if text.endsInSlash then [.here] else []) =
      .ok standing → p = standing.place := by
    intro links p stay
    rw [follow_slash_ok stay]
  unfold locate locateFrom
  rw [fit]
  rcases List.eq_nil_or_concat' text.segments with none_ | ⟨before, last, steps⟩
  · refine .inl ⟨none, ?_⟩
    have : text.origin fs.workingDir = standing.place :=
      stays (by simpa [Path.steps, none_] using way)
    exact ⟨by simp [none_, this, bind, Except.bind, refused], by simp [none_]⟩
  · rw [Path.steps, steps, List.append_assoc] at way
    obtain ⟨m, front, back⟩ := follow_prefix way
    have taken : text.segments.dropLast = before := by simp [steps]
    have found : text.segments.getLast? = some last := by simp [steps]
    rw [found, taken]
    cases last with
    | here =>
        obtain ⟨read, stay⟩ := follow_here_ok back
        refine .inl ⟨some .here, ?_, by simp [steps]⟩
        simp [front, read, ← stays stay, bind, Except.bind, refused]
    | up =>
        obtain ⟨read, stay⟩ := follow_up_ok back
        refine .inl ⟨some .up, ?_, by simp [steps]⟩
        simp [front, read, ← stays stay, bind, Except.bind, refused]
    | name n =>
        obtain ⟨enter, short, there⟩ := follow_name_ok back
        exact .inr ⟨m.place, n, by simp [front, enter, short, bind, Except.bind, refused], there⟩

/-! ## Taking away -/

/-- All that is gone lies at or below a directory or a link that the text names. -/
structure TookAway (text : Path) (fs gs : FileSystem) : Prop where
  workingDir : gs.workingDir = fs.workingDir
  limits : gs.limits = fs.limits
  at? : ∀ q, gs.at? q = fs.at? q ∨ gs.at? q = none ∧ ∃ d, fs.Names text d ∧ d <+: q ∧
    (fs.at? d = some .directory ∨ ∃ target, fs.at? d = some (.link target))

namespace TookAway

theorem refl (text : Path) (fs : FileSystem) : TookAway text fs fs := ⟨rfl, rfl, fun _ => .inl rfl⟩

theorem kept {e : Entry} (h : TookAway text fs gs) (there : gs.at? q = some e) :
    fs.at? q = some e := by
  rcases h.at? q with same | ⟨gone, _⟩
  · rw [← same, there]
  · simp [gone] at there

theorem clear (named : fs.Names text p) (there : fs.at? p = some .directory) :
    TookAway text fs (fs.clear p) := by
  refine ⟨clear_workingDir .., clear_limits .., fun q => ?_⟩
  rw [at?_clear]
  split
  · rename_i below
    exact .inr ⟨rfl, p, named, below.2, .inl there⟩
  · exact .inl rfl

theorem remove (h : TookAway text fs gs) (named : fs.Names text p)
    (there : fs.at? p = some .directory ∨ ∃ target, fs.at? p = some (.link target)) :
    TookAway text fs (gs.remove p) := by
  refine ⟨(remove_workingDir ..).trans h.workingDir, (remove_limits ..).trans h.limits, fun q => ?_⟩
  rw [at?_remove]
  split
  · rename_i below
    exact .inr ⟨rfl, p, named, below.2, there⟩
  · exact h.at? q

end TookAway

theorem lstat_of_entry {dir : Place} {n : Name} {e : Entry} {slash : Bool}
    (found : fs.locate text = .ok (.entry dir n slash)) (h : fs.lstat text = .ok e)
    (noSlash : slash = false) :
    fs.at? (dir ++ [n]) = some e := by
  unfold lstat at h
  obtain ⟨target, found', h⟩ := ok_of_bind h
  cases found.symm.trans found'
  simp only at h
  split at h
  · cases h
  · rename_i e' there
    simpa [noSlash, there] using h

/-- A text whose last step is no link names what it leads to. -/
theorem names_of_lstat {standing : Standing} {e : Entry} (arrive : fs.resolve text = .ok standing)
    (stat : fs.lstat text = .ok e) (plain : ∀ target, e ≠ .link target) :
    fs.Names text standing.place := by
  have leads := LeadsTo.of_resolve arrive
  rcases locate_of_resolve arrive with ⟨last, _, noName⟩ | ⟨dir, n, found, _⟩
  · exact .through (.inr noName) leads
  · cases slashed : text.endsInSlash with
    | true => exact .through (.inl slashed) leads
    | false =>
        rw [slashed] at found
        obtain ⟨before, left, steps, way, _, _, _⟩ := locate_entry found
        have there := lstat_of_entry found stat rfl
        -- The entry is no link, so the text leads to it.
        have here : fs.LeadsTo text (dir ++ [n]) := by
          rw [LeadsTo, steps]
          refine (Leads.of_follow way).append (.name (fun target isLink => ?_) (.done _))
          exact plain target (Option.some.inj (there.symm.trans isLink))
        rw [← here.unique leads]
        exact .entry steps slashed (Leads.of_follow way)

theorem unlink_ok (h : fs.unlink text = .ok gs) :
    ∃ dir n e, fs.locate text = .ok (.entry dir n false) ∧ text.endsInSlash = false ∧
      fs.at? (dir ++ [n]) = some e ∧ e ≠ .directory ∧ gs = fs.remove (dir ++ [n]) := by
  unfold unlink at h
  obtain ⟨target, found, h⟩ := ok_of_bind h
  cases target with
  | node place last => cases h
  | entry dir n slash =>
      obtain ⟨_, _, _, _, _, _, rfl⟩ := locate_entry found
      simp only at h
      split at h
      · cases h
      · cases h
      · rename_i e other there
        split at h
        · cases h
        · rename_i noSlash
          have noSlash : text.endsInSlash = false := by simpa using noSlash
          cases h
          exact ⟨dir, n, e, by rw [← noSlash]; exact found, noSlash,
            there, fun same => other same, rfl⟩

theorem removeEmptyDir_ok (h : fs.removeEmptyDir text = .ok gs) :
    ∃ dir n, fs.locate text = .ok (.entry dir n text.endsInSlash) ∧
      fs.at? (dir ++ [n]) = some .directory ∧ gs = fs.remove (dir ++ [n]) := by
  unfold removeEmptyDir at h
  obtain ⟨target, found, h⟩ := ok_of_bind h
  split at h
  · cases h
  · cases h
  · cases h
  · rename_i dir n slash
    obtain ⟨_, _, _, _, _, _, rfl⟩ := locate_entry found
    split at h
    · cases h
    · rename_i there
      split at h
      · cases h
        exact ⟨dir, n, found, there, rfl⟩
      · cases h
    · cases h

theorem atomically_cases (f : FileSystem → Except IoFault FileSystem) (fs : FileSystem) :
    leftBy (atomically f fs) = fs ∨ f fs = .ok (leftBy (atomically f fs)) := by
  unfold atomically
  split
  · rename_i changed done
    exact .inr done
  · exact .inl rfl

/-- A call that changes all or nothing changes nothing if it fails. -/
theorem atomically_error {f : FileSystem → Except IoFault FileSystem} {e : IoFault}
    (h : atomically f fs = .error e gs) : gs = fs := by
  unfold atomically at h
  split at h <;> simp_all

/-- Under a text whose entry is gone there is no directory. -/
theorem not_isDir_of_remove {before : List Segment} {dir : Place} {n : Name} {left : Nat}
    (steps : text.segments = before ++ [.name n])
    (way : fs.follow fs.limits.links (text.origin fs.workingDir) before = .ok ⟨dir, left⟩) :
    (fs.remove (dir ++ [n])).isDir text = false := by
  have kept : ∀ {q e}, (fs.remove (dir ++ [n])).at? q = some e →
      fs.at? q = some e := fun {q e} there => by
    rw [at?_remove] at there
    split at there
    · simp at there
    · exact there
  by_contra there
  obtain ⟨_, ⟨_, arrive⟩, _⟩ := isDir_iff.1 (by simpa using there)
  have whole := (resolve_eq_ok_iff.1 arrive).2
  rw [Path.steps, steps, List.append_assoc] at whole
  obtain ⟨m, front, back⟩ := follow_prefix whole
  -- The way to the entry is the same as before, and the entry is missing.
  obtain rfl : m.place = dir := (Leads.of_follow_of_kept kept front).unique (Leads.of_follow way)
  have := (follow_name_ok back).2.2
  simp [at?_remove] at this

/-- A directory that a text leads to is found there, unless the way to its entry has been lost. -/
theorem removeEmptyDir_ne_noEntry (there : fs.isDir text = true) :
    fs.removeEmptyDir text ≠ .error (.os .noEntry) := by
  obtain ⟨p, ⟨links, arrive⟩, _⟩ := isDir_iff.1 there
  unfold removeEmptyDir
  rcases locate_of_resolve arrive with ⟨last, found, _⟩ | ⟨dir, n, found, stands⟩
  · rw [found]
    cases last with
    | none => simp [bind, Except.bind]
    | some step => cases step <;> simp [bind, Except.bind]
  · rw [found]
    simp only [bind, Except.bind]
    split
    · rename_i missing
      exact absurd missing stands
    · split <;> simp
    · simp

theorem unlink_ne_noEntry (there : fs.isDir text = true) :
    fs.unlink text ≠ .error (.os .noEntry) := by
  obtain ⟨p, ⟨links, arrive⟩, _⟩ := isDir_iff.1 there
  unfold unlink
  rcases locate_of_resolve arrive with ⟨last, found, _⟩ | ⟨dir, n, found, stands⟩
  · simp [found, bind, Except.bind]
  · rw [found]
    simp only [bind, Except.bind]
    split
    · rename_i missing
      exact absurd missing stands
    · simp
    · split <;> simp

theorem lstat_ne_noEntry (there : fs.isDir text = true) :
    fs.lstat text ≠ .error (.os .noEntry) := by
  obtain ⟨p, ⟨links, arrive⟩, directory⟩ := isDir_iff.1 there
  unfold lstat
  rcases locate_of_resolve arrive with ⟨last, found, _⟩ | ⟨dir, n, found, stands⟩
  · simp [found, directory, bind, Except.bind]
  · rw [found]
    simp only [bind, Except.bind]
    split
    · rename_i missing
      exact absurd missing stands
    · split
      · simp [lookup_eq_ok_iff.2 ⟨arrive, directory⟩, Except.map]
      · simp

/-! ## Whole trees -/

theorem removeTree_tookAway (text : Path) (fs : FileSystem) :
    TookAway text fs (leftBy (removeTree text fs)) := by
  unfold removeTree
  split
  · exact .refl text fs
  · -- A link goes, and nothing else.
    rename_i target stat
    unfold atomically
    split
    · rename_i gs removed
      obtain ⟨dir, n, e, found, noSlash, there, _, rfl⟩ := unlink_ok removed
      obtain ⟨before, left, steps, way, _, _, _⟩ := locate_entry found
      have isLink := lstat_of_entry found stat rfl
      exact (TookAway.refl text fs).remove (.entry steps noSlash (Leads.of_follow way))
        (.inr ⟨target, isLink⟩)
    · exact .refl text fs
  · rename_i e notLink stat
    split
    · exact .refl text fs
    · rename_i standing found
      obtain ⟨arrive, there⟩ := lookup_eq_ok_iff.1 found
      have emptied : TookAway text fs (fs.clear standing.place) :=
        .clear (names_of_lstat arrive stat notLink) there
      simp only
      split
      · -- The directory itself is looked up once more, and stands where it stood.
        rename_i gs removed
        obtain ⟨dir, n, found', there', rfl⟩ := removeEmptyDir_ok removed
        obtain ⟨before, left, steps, way, _, _, _⟩ := locate_entry found'
        have front : fs.Leads (text.origin fs.workingDir) before dir :=
          Leads.of_follow_of_kept emptied.kept way
        have named : fs.Names text (dir ++ [n]) := by
          cases slashed : text.endsInSlash with
          | false => exact .entry steps slashed front
          | true =>
              refine .through (.inl slashed) ?_
              rw [LeadsTo, steps]
              exact front.append (.name (by simp [emptied.kept there']) (.done _))
        exact emptied.remove named (.inl (emptied.kept there'))
      · exact emptied
      · exact emptied
    · exact .refl text fs

/-- What is left when the tree under a text has been taken away as far as it can be. -/
def without (fs : FileSystem) (text : Path) : FileSystem := leftBy (removeTreeIfThere text fs)

theorem without_tookAway (fs : FileSystem) (text : Path) : TookAway text fs (fs.without text) := by
  have all := removeTree_tookAway text fs
  unfold without removeTreeIfThere
  split
  · rename_i left h
    simpa [h] using all
  · exact all

theorem without_of_zero (zero : 0 ∈ text) : fs.without text = fs := by
  have refused : fs.lstat text = .error .zeroByte := by
    simp [lstat, locate, vet, zero, bind, Except.bind]
  simp [without, removeTreeIfThere, removeTree, refused]

/-- A tree that is said to be missing is missing, and nothing has changed. -/
theorem removeTree_noEntry (h : removeTree text fs = .error (.os .noEntry) gs) :
    gs = fs ∧ fs.isDir text = false := by
  unfold removeTree at h
  split at h
  · rename_i e stat
    cases h
    exact ⟨rfl, by simpa using fun there => lstat_ne_noEntry there stat⟩
  · unfold atomically at h
    split at h
    · simp at h
    · rename_i e removed
      cases h
      exact ⟨rfl, by simpa using fun there => unlink_ne_noEntry there removed⟩
  · split at h
    · rename_i found
      cases h
      refine ⟨rfl, ?_⟩
      simp [isDir, found]
    · simp only at h
      split at h <;> simp_all
    · simp at h

/-- Once a tree has been taken away, the text leads to no directory. -/
theorem not_isDir_of_removed (h : removeTreeIfThere text fs = .ok () gs) :
    gs.isDir text = false := by
  unfold removeTreeIfThere at h
  split at h
  · rename_i left missing
    cases h
    obtain ⟨rfl, noDir⟩ := removeTree_noEntry missing
    exact noDir
  · unfold removeTree at h
    split at h
    · simp at h
    · -- A link went.
      unfold atomically at h
      split at h
      · rename_i removed
        cases h
        obtain ⟨dir, n, e, found, _, _, _, rfl⟩ := unlink_ok removed
        obtain ⟨before, left, steps, way, _, _, _⟩ := locate_entry found
        exact not_isDir_of_remove steps way
      · simp at h
    · split at h
      · simp at h
      · simp only at h
        split at h
        · rename_i removed
          cases h
          obtain ⟨dir, n, found, _, rfl⟩ := removeEmptyDir_ok removed
          obtain ⟨before, left, steps, way, _, _, _⟩ := locate_entry found
          exact not_isDir_of_remove steps way
        · -- The way to the entry was below it, and is lost.
          rename_i missing
          cases h
          simpa using fun there => removeEmptyDir_ne_noEntry there missing
        · simp at h
      · simp at h

end FileSystem
end ClassPack
