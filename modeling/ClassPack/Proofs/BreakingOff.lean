import ClassPack.Proofs.FileSystem.Succeeding
import ClassPack.Proofs.HiddenEntries

/-!
# BreakingOff — when a search breaks off

* `FileSystem.Enters` — the directories that a walk enters, and for each those that it is inside of
  then. There is an end to them: `Enters.length_le`;
* `FileSystem.BreaksOff` — there is something that a walk breaks off at: its root or a link leads
  nowhere, a link leads back to a directory that the walk is inside of (`Misled`), or the text of a
  directory is too long (`TooFar`). This is told by what texts lead to, and not by the walk;
* `FileSystem.error_mem_walk_iff` — a walk stumbles if and only if there is;
* `findMatches_breaksOff` — and a search fails then, and gives its matches otherwise.
-/

namespace ClassPack

open FileSystem

/-- Whether a name starts with something else than a dot. -/
def Name.isPlain (n : Name) : Bool := n.bytes.head? != some dot

theorem Name.not_isHidden_of_isPlain {n : Name} (plain : n.isPlain = true) :
    (!n.isHidden) = true := by
  unfold isPlain at plain
  unfold isHidden
  simp_all

namespace FileSystem

variable {fs : FileSystem} {keep : Name → Bool} {root path : Path} {names : Place}
  {here next : Standing} {stack : List Enclosing} {p : Place} {above : List Place} {n : Name}

/-! ## What is entered -/

/-- The directories that a walk enters, told by the names on the way from its root. With each come
the places of the directories that the walk is inside of then, itself included, the nearest first. A
directory is not entered through a link from within itself. -/
inductive Enters (fs : FileSystem) (keep : Name → Bool) (root : Path) :
    Place → List Place → Prop where
  | root {here : Standing} : fs.lookup root = .ok (here, .directory) →
    Enters fs keep root [] [here.place]
  | entry {names p : Place} {above : List Place} {n : Name} {next : Standing} :
      Enters fs keep root names (p :: above) → fs.at? (p ++ [n]) ≠ none → keep n = true →
      fs.lookup (root.downward (names ++ [n])) = .ok (next, .directory) →
      fs.at? (p ++ [n]) = some .directory ∨ next.place ∉ p :: above →
        Enters fs keep root (names ++ [n]) (next.place :: p :: above)

/-- What a walk breaks off at: its root or a link that leads nowhere, or a link that leads back. -/
inductive Misled (fs : FileSystem) (keep : Name → Bool) (root : Path) : Prop where
  /-- The root leads nowhere. -/
  | root {fault : IoFault} : fs.lookup root = .error fault → Misled fs keep root
  /-- A link in a directory that is entered leads nowhere. -/
  | lost {names p : Place} {above : List Place} {n : Name} {target : Path} {fault : IoFault} :
      Enters fs keep root names (p :: above) → fs.at? (p ++ [n]) = some (.link target) →
      fs.lookup (root.downward (names ++ [n])) = .error fault → Misled fs keep root
  /-- A link in a directory that is entered leads back to it or to one around it. -/
  | back {names p : Place} {above : List Place} {n : Name} {target : Path} {next : Standing} :
      Enters fs keep root names (p :: above) → fs.at? (p ++ [n]) = some (.link target) →
      fs.lookup (root.downward (names ++ [n])) = .ok (next, .directory) → next.place ∈ p :: above →
        Misled fs keep root

/-- A directory would be entered, but the system does not take the text that it is reached by. -/
def TooFar (fs : FileSystem) (keep : Name → Bool) (root : Path) : Prop :=
  ∃ names p above n, fs.Enters keep root names (p :: above) ∧ fs.at? (p ++ [n]) = some .directory ∧
    keep n = true ∧ exceeds (root.downward (names ++ [n])).length fs.limits.path = true

/-- There is something to break off at. -/
def BreaksOff (fs : FileSystem) (keep : Name → Bool) (root : Path) : Prop :=
  fs.Misled keep root ∨ fs.TooFar keep root

section Filters

variable {keep' : Name → Bool} (wider : ∀ p n, fs.at? (p ++ [n]) ≠ none → keep n = true →
  keep' n = true)

include wider

theorem Enters.mono {places : List Place} (entered : fs.Enters keep root names places) :
    fs.Enters keep' root names places := by
  induction entered with
  | root looked => exact .root looked
  | entry _ present kept looked free ih =>
      exact .entry ih present (wider _ _ present kept) looked free

/-- With a filter that keeps more names, there is more to break off at. -/
theorem BreaksOff.mono (broken : fs.BreaksOff keep root) : fs.BreaksOff keep' root := by
  rcases broken with misled | ⟨names, p, above, n, entered, there, kept, long⟩
  · cases misled with
    | root lost => exact .inl (.root lost)
    | lost entered link lost => exact .inl (.lost (entered.mono wider) link lost)
    | back entered link looked back => exact .inl (.back (entered.mono wider) link looked back)
  · exact .inr ⟨names, p, above, n, entered.mono wider, there, wider p n (by simp [there]) kept,
      long⟩

end Filters

/-! ## Texts of entries -/

theorem downward_concat (root : Path) (names : Place) (n : Name) :
    root.downward (names ++ [n]) = (root.downward names).join n.bytes := by
  simp [Path.downward]

/-- The text of an entry leads where its name leads from its directory. -/
theorem resolve_join_name (resolved : fs.resolve path = .ok here) (n : Name) :
    fs.resolve (path.join n.bytes) = fs.step here n (path.join n.bytes) := by
  have single : Place.relativePath [n] = n.bytes := rfl
  have relative : Path.isAbsolute n.bytes = false := single ▸ Path.isAbsolute_relativePath [n]
  have steps : Path.steps (path.join n.bytes) = path.segments ++ [.name n] := by
    rw [Path.steps, Path.segments_join relative, Path.endsInSlash_join relative n.valid.1, ← single,
      Path.segments_relativePath, Path.endsInSlash_relativePath]
    simp
  obtain ⟨m, front, stay⟩ := follow_prefix (resolve_eq_ok_iff.1 resolved).2
  obtain rfl : here = m := follow_slash_ok stay
  rw [resolve, step, Path.origin_join relative, steps, follow_append, front]

/-- What a link leads to by its text is what the walk finds there. -/
theorem lookup_join_name (resolved : fs.resolve path = .ok here) (n : Name) :
    fs.lookup (path.join n.bytes) =
      match fs.step here n (path.join n.bytes) with
      | .error fault => .error fault
      | .ok next =>
          match fs.at? next.place with
          | some e => .ok (next, e)
          | none => .error (.os .noEntry) := by
  rw [lookup, resolve_join_name resolved]
  cases fs.step here n (path.join n.bytes) <;> rfl

theorem length_join_name (some_ : path ≠ []) (noSlash : path.endsInSlash = false) (n : Name) :
    (path.join n.bytes).length = path.length + (n.bytes.length + 1) := by
  have relative : Path.isAbsolute n.bytes = false := Path.isAbsolute_relativePath [n]
  rw [Path.join, if_neg (by simp [relative]), if_neg (by simp [some_, noSlash]), List.length_append,
    List.length_cons]

theorem vet_join_name (fit : fs.vet path = .ok ())
    (short : exceeds (path.join n.bytes).length fs.limits.path = false) :
    fs.vet (path.join n.bytes) = .ok () := by
  have noZero : 0 ∉ path.join n.bytes :=
    Path.zero_not_mem_join (zero_not_mem_of_vet fit) n.valid.2.2.2.2
  simp [vet, noZero, Path.join_ne_nil path n.valid.1, short]

/-! ## One entry -/

/-- Where a walk goes on below an entry. -/
inductive Onward (fs : FileSystem) (keep : Name → Bool) (here : Standing) (path : Path)
    (stack : List Enclosing) (n : Name) : Standing → Prop where
  | plain : keep n = true → fs.at? (here.place ++ [n]) = some .directory →
      Onward fs keep here path stack n ⟨here.place ++ [n], here.links⟩
  | link {target : Path} {next : Standing} : keep n = true →
      fs.at? (here.place ++ [n]) = some (.link target) →
      fs.lookup (path.join n.bytes) = .ok (next, .directory) →
        next.place ∉ stack.map Enclosing.place → Onward fs keep here path stack n next

theorem Onward.remaining_lt (onward : fs.Onward keep here path stack n next) :
    fs.remaining (⟨next.place, path.join n.bytes⟩ :: stack) next.place <
      fs.remaining stack here.place := by
  cases onward with
  | plain _ there => exact remaining_lt_of_child there
  | link _ _ looked outside =>
      refine remaining_lt_of_link ⟨next.place, _⟩ (lookup_eq_ok_iff.1 looked).2 fun e inside same =>
        ?_
      exact outside (List.mem_map.2 ⟨e, inside, same⟩)

section Branch

variable {target : Path} {fault : IoFault} (resolved : fs.resolve path = .ok here)

include resolved

theorem branch_of_lost (keep : Name → Bool) (names : Place) (stack : List Enclosing)
    (link : fs.at? (here.place ++ [n]) = some (.link target))
    (lost : fs.lookup (path.join n.bytes) = .error fault) :
    ∃ stumble, fs.branch keep here path names stack n = [.error stumble] := by
  rw [lookup_join_name resolved] at lost
  simp only [branch, link]
  cases stepped : fs.step here n (path.join n.bytes) with
  | error e => exact ⟨_, rfl⟩
  | ok next =>
      cases there : fs.at? next.place with
      | none => exact ⟨.io (path.join n.bytes) (.os .noEntry), by simp [there]⟩
      | some e => simp [stepped, there] at lost

theorem branch_of_back (keep : Name → Bool) (names : Place)
    (link : fs.at? (here.place ++ [n]) = some (.link target))
    (looked : fs.lookup (path.join n.bytes) = .ok (next, .directory))
    (inside : next.place ∈ stack.map Enclosing.place) :
    ∃ stumble, fs.branch keep here path names stack n = [.error stumble] := by
  obtain ⟨stepped, there⟩ := lookup_eq_ok_iff.1 looked
  rw [resolve_join_name resolved] at stepped
  obtain ⟨ancestor, encloses, same⟩ := List.mem_map.1 inside
  have found : stack.find? (fun e => e.place = next.place) ≠ none := fun none_ => by
    simpa [same] using List.find?_eq_none.1 none_ ancestor encloses
  obtain ⟨first, found⟩ := Option.ne_none_iff_exists'.1 found
  exact ⟨.loop (path.join n.bytes) first.path, by simp only [branch, link, stepped, there, found]⟩

theorem branch_of_onward (names : Place) (onward : fs.Onward keep here path stack n next) :
    ∃ found, fs.branch keep here path names stack n = .ok found ::
      fs.walkFrom keep next (path.join n.bytes) (names ++ [n])
      (⟨next.place, path.join n.bytes⟩ :: stack) := by
  refine ⟨⟨names ++ [n], path.join n.bytes, false⟩, ?_⟩
  cases onward with
  | plain kept there => simp only [branch, there, kept, if_true]
  | link kept link looked outside =>
      obtain ⟨stepped, there⟩ := lookup_eq_ok_iff.1 looked
      rw [resolve_join_name resolved] at stepped
      have outsider : stack.find? (fun e => e.place = next.place) = none := by
        simpa [List.find?_eq_none] using outside
      simp only [branch, link, stepped, there, outsider, kept, if_true]

/-- Why there is a stumble in a branch. -/
theorem of_error_mem_branch {stumble : WalkFault}
    (met : .error stumble ∈ fs.branch keep here path names stack n) :
    (∃ target, fs.at? (here.place ++ [n]) = some (.link target)) ∧
        ((∃ fault, fs.lookup (path.join n.bytes) = .error fault) ∨
          ∃ next, fs.lookup (path.join n.bytes) = .ok (next, .directory) ∧
          next.place ∈ stack.map Enclosing.place) ∨
      ∃ next, fs.Onward keep here path stack n next ∧ .error stumble ∈
          fs.walkFrom keep next (path.join n.bytes) (names ++ [n])
          (⟨next.place, path.join n.bytes⟩ :: stack) := by
  have looked := lookup_join_name resolved n
  unfold branch at met
  dsimp only at met
  split at met
  · simp at met
  · split at met <;> simp at met
  · rename_i there
    split at met
    · exact .inr ⟨_, .plain ‹_› there, by simpa using met⟩
    · simp at met
  · rename_i target link
    split at met
    · rename_i stepped
      exact .inl ⟨⟨target, link⟩, .inl ⟨_, by simpa [stepped] using looked⟩⟩
    · rename_i next stepped
      rw [stepped] at looked
      dsimp only at looked
      split at met
      · rename_i directory
        rw [directory] at looked
        split at met
        · rename_i ancestor found
          have inside : next.place ∈ stack.map Enclosing.place := List.mem_map.2
            ⟨ancestor, List.mem_of_find?_eq_some found, by simpa using List.find?_some found⟩
          exact .inl ⟨⟨target, link⟩, .inr ⟨next, looked, inside⟩⟩
        · rename_i outsider
          have outside := List.find?_eq_none.1 outsider
          split at met
          · exact .inr ⟨next, .link ‹_› link looked (by simpa using outside), by simpa using met⟩
          · simp at met
      · split at met <;> simp at met
      · -- A link does not lead to another link.
        rename_i notDirectory notFile
        have start : fs.at? here.place = some .directory := fs.at?_parent (n := n) (by simp [link])
        refine .inl ⟨⟨target, link⟩, .inl ⟨.os .noEntry, ?_⟩⟩
        cases there : fs.at? next.place with
        | none => rw [looked, there]
        | some e =>
            cases e with
            | directory => exact absurd there notDirectory
            | file content => exact absurd there (notFile content)
            | link onward =>
                exact absurd there (plain_of_follow start (follow_of_step stepped) onward)

end Branch

/-! ## The walk -/

theorem follow_of_lookup_join (resolved : fs.resolve path = .ok here)
    (looked : fs.lookup (path.join n.bytes) = .ok (next, .directory)) :
    fs.follow here.links here.place [.name n] = .ok next ∧ fs.at? next.place = some .directory := by
  obtain ⟨stepped, there⟩ := lookup_eq_ok_iff.1 looked
  rw [resolve_join_name resolved] at stepped
  exact ⟨follow_of_step stepped, there⟩

theorem Onward.of_lookup (resolved : fs.resolve path = .ok here)
    (present : fs.at? (here.place ++ [n]) ≠ none) (kept : keep n = true)
    (looked : fs.lookup (path.join n.bytes) = .ok (next, .directory))
    (free : fs.at? (here.place ++ [n]) = some .directory ∨ next.place ∉ stack.map Enclosing.place) :
    fs.Onward keep here path stack n next := by
  obtain ⟨followed, directory⟩ := follow_of_lookup_join resolved looked
  obtain ⟨e, there⟩ := Option.ne_none_iff_exists'.1 present
  cases e with
  | link target => exact .link kept there looked (free.resolve_left (by simp [there]))
  | directory =>
      cases followed.symm.trans (follow_name_of_plain here.links there (by simp))
      exact .plain kept there
  | file content =>
      -- A file is no directory.
      cases followed.symm.trans (follow_name_of_plain here.links there (by simp))
      simp [there] at directory

/-- What is met in a directory that a walk enters is met in the walk. The directory is reached by no
more names than the walk is bounded by. -/
theorem Enters.walked {places : List Place} (entered : fs.Enters keep root names places) :
    ∃ here stack above, places = here.place :: above ∧ stack.map Enclosing.place = places ∧
      fs.resolve (root.downward names) = .ok here ∧
      names.length + fs.remaining stack here.place ≤ fs.remaining [] [] ∧
      ∀ x ∈ fs.walkFrom keep here (root.downward names) names stack, x ∈ fs.walk keep root := by
  induction entered with
  | @root here looked =>
      refine ⟨here, [⟨here.place, root⟩], [], rfl, rfl, (lookup_eq_ok_iff.1 looked).1,
        ?_, fun x met => ?_⟩
      · have fewer := Nat.mul_le_mul_right (fs.depth + 2) (fs.outside_cons_le ⟨here.place, root⟩ [])
        simp only [remaining, List.length_nil]
        omega
      · unfold walk
        rw [looked]
        exact List.mem_cons_of_mem _ met
  | @entry names p above n next _ present kept looked free ih =>
      obtain ⟨here, stack, _, ⟨rfl, rfl⟩, inside, resolved, bound, within⟩ := ih
      have resolved' := (lookup_eq_ok_iff.1 looked).1
      rw [downward_concat] at looked resolved' ⊢
      have onward : fs.Onward keep here (root.downward names) stack n next :=
        .of_lookup resolved present kept looked (inside ▸ free)
      refine ⟨next, ⟨next.place, (root.downward names).join n.bytes⟩ :: stack, _,
        rfl, by simp [inside], resolved', ?_, ?_⟩
      · have less := onward.remaining_lt
        rw [List.length_append, List.length_singleton]
        omega
      · intro x met
        obtain ⟨found, branch⟩ := branch_of_onward resolved names onward
        refine within x ((mem_walkFrom (resolve_eq_ok_iff.1 resolved).1).2 ⟨n, present, ?_⟩)
        rw [branch]
        exact List.mem_cons_of_mem _ met

/-- A walk can go down only so far. -/
theorem Enters.length_le {places : List Place} (entered : fs.Enters keep root names places) :
    names.length ≤ fs.remaining [] [] := by
  obtain ⟨_, _, _, _, _, _, bound, _⟩ := entered.walked
  omega

/-- The text of a directory that is entered leads to it, and what its branches add is met in the
walk. -/
theorem Enters.branches (entered : fs.Enters keep root names (p :: above)) :
    ∃ here stack, here.place = p ∧ stack.map Enclosing.place = p :: above ∧
      fs.resolve (root.downward names) = .ok here ∧
      ∀ n, fs.at? (p ++ [n]) ≠ none → ∀ x ∈ fs.branch keep here (root.downward names) names stack n,
        x ∈ fs.walk keep root := by
  obtain ⟨here, stack, _, ⟨rfl, rfl⟩, inside, resolved, _, within⟩ := entered.walked
  refine ⟨here, stack, rfl, inside, resolved, fun n present x met => within x ?_⟩
  exact (mem_walkFrom (resolve_eq_ok_iff.1 resolved).1).2 ⟨n, present, met⟩

/-- A walk that stumbles below a directory has come upon something to break off at. -/
theorem of_error_mem_walkFrom {stumble : WalkFault}
    (entered : fs.Enters keep root names (here.place :: above))
    (inside : stack.map Enclosing.place = here.place :: above)
    (resolved : fs.resolve (root.downward names) = .ok here)
    (met : .error stumble ∈ fs.walkFrom keep here (root.downward names) names stack) :
    fs.BreaksOff keep root := by
  -- Induction on what is left to walk, as the walk itself goes.
  induction bound : fs.remaining stack here.place using Nat.strongRecOn
    generalizing here names stack above with
  | ind m ih =>
    subst bound
    have vetted := (resolve_eq_ok_iff.1 resolved).1
    obtain ⟨n, present, met⟩ := (mem_walkFrom vetted).1 met
    rcases of_error_mem_branch resolved met with
      ⟨⟨target, link⟩, ⟨fault, lost⟩ | ⟨next, looked, back⟩⟩ |
      ⟨next, onward, met⟩
    · exact .inl (.lost entered link (downward_concat .. ▸ lost))
    · exact .inl (.back entered link (downward_concat .. ▸ looked) (inside ▸ back))
    · have less := onward.remaining_lt
      rw [← downward_concat] at met less
      cases onward with
      | link kept link looked outside =>
          rw [← downward_concat] at looked
          exact ih _ less (.entry entered (by simp [link]) kept looked (.inr (inside ▸ outside)))
            (by simp [inside]) (lookup_eq_ok_iff.1 looked).1 met rfl
      | plain kept there =>
          cases long : exceeds (root.downward (names ++ [n])).length fs.limits.path with
          | true => exact .inr ⟨names, _, above, n, entered, there, kept, long⟩
          | false =>
              have resolved' : fs.resolve (root.downward (names ++ [n])) =
                  .ok ⟨here.place ++ [n], here.links⟩ := by
                rw [downward_concat] at long ⊢
                rw [resolve_join_name resolved, step, vet_join_name vetted long,
                  follow_name_of_plain here.links there (by simp)]
                rfl
              have looked := lookup_eq_ok_iff.2 ⟨resolved', there⟩
              exact ih _ less (.entry entered (by simp [there]) kept looked (.inl there))
                (by simp [inside]) resolved' met rfl

theorem Misled.error_mem (misled : fs.Misled keep root) :
    ∃ fault, .error fault ∈ fs.walk keep root := by
  cases misled with
  | root lost => exact ⟨_, by simp only [walk, lost, List.mem_singleton]; rfl⟩
  | @lost names _ _ _ _ _ entered link lost =>
      obtain ⟨here, stack, rfl, _, resolved, within⟩ := entered.branches
      obtain ⟨stumble, branch⟩ :=
        branch_of_lost resolved keep names stack link (downward_concat .. ▸ lost)
      exact ⟨stumble, within _ (by simp [link]) _ (branch ▸ List.mem_singleton_self _)⟩
  | @back names _ _ _ _ _ entered link looked back =>
      obtain ⟨here, stack, rfl, inside, resolved, within⟩ := entered.branches
      obtain ⟨stumble, branch⟩ :=
        branch_of_back resolved keep names link (downward_concat .. ▸ looked) (inside ▸ back)
      exact ⟨stumble, within _ (by simp [link]) _ (branch ▸ List.mem_singleton_self _)⟩

theorem TooFar.error_mem (far : fs.TooFar keep root) :
    ∃ fault, .error fault ∈ fs.walk keep root := by
  obtain ⟨names, p, above, n, entered, there, kept, long⟩ := far
  obtain ⟨here, stack, rfl, _, resolved, within⟩ := entered.branches
  have onward : fs.Onward keep here (root.downward names) stack n _ := .plain kept there
  obtain ⟨found, branch⟩ := branch_of_onward resolved names onward
  rw [downward_concat] at long
  cases refused : fs.vet ((root.downward names).join n.bytes) with
  | ok _ => simp [not_exceeds_of_vet refused] at long
  | error fault =>
      refine ⟨.io ((root.downward names).join n.bytes) fault, within n (by simp [there]) _ ?_⟩
      rw [branch, walkFrom, refused]
      simp

/-- A walk stumbles if and only if there is something to break off at. -/
theorem error_mem_walk_iff :
    (∃ fault, .error fault ∈ fs.walk keep root) ↔ fs.BreaksOff keep root := by
  constructor
  · rintro ⟨fault, met⟩
    unfold walk at met
    split at met
    · exact .inl (.root ‹_›)
    · rename_i here looked
      exact of_error_mem_walkFrom (.root looked) rfl (lookup_eq_ok_iff.1 looked).1
        (List.mem_of_ne_of_mem (by simp) met)
    · simp at met
  · rintro (misled | far)
    · exact misled.error_mem
    · exact far.error_mem

end FileSystem

/-! ## Searches -/

section Searches

variable {pattern : ArtifactPattern} {selector : Selector} {root : String} {w : Workshop}

theorem findMatches_of_stumble (compiled : pattern.compile = .ok selector)
    (stumbles : ∃ fault, .error fault ∈ visits w.files root) :
    ∃ fault, outcomeOf (findMatches root pattern w) = .error (.walk root fault) := by
  rw [outcomeOf_findMatches, compiled]
  dsimp only
  cases first : (untilError (visits w.files root)).2 with
  | some fault => exact ⟨fault, rfl⟩
  | none =>
      obtain ⟨fault, met⟩ := stumbles
      exact absurd met ((mem_untilError first).1 fault)

theorem findMatches_of_steady (compiled : pattern.compile = .ok selector)
    (steady : ∀ fault, .error fault ∉ visits w.files root) :
    ∃ paths, outcomeOf (findMatches root pattern w) = .ok paths := by
  rw [outcomeOf_findMatches, compiled, untilError_of_steady steady]
  exact ⟨_, rfl⟩

/-- A search ends on every structure of links: the directories that it enters lie no more names
below its root than the file system bounds. It fails where there is something to break off at that
is reached by names without a dot in front, and where it does not give its matches, there is
something that is reached by names that are not hidden. Both are the same if the names with a dot in
front are texts. -/
theorem findMatches_breaksOff (compiled : pattern.compile = .ok selector) :
    (∀ names places, w.files.Enters (!·.isHidden) (Utf8.encode root) names places →
      names.length ≤ w.files.remaining [] []) ∧
    (w.files.BreaksOff Name.isPlain (Utf8.encode root) →
      ∃ fault, outcomeOf (findMatches root pattern w) = .error (.walk root fault)) ∧
    ((∃ paths, outcomeOf (findMatches root pattern w) = .ok paths) ∨
      (∃ fault, outcomeOf (findMatches root pattern w) = .error (.walk root fault)) ∧
        w.files.BreaksOff (!·.isHidden) (Utf8.encode root)) ∧
    ((∀ p n, w.files.at? (p ++ [n]) ≠ none → n.isPlain = !n.isHidden) →
      ((∃ fault, outcomeOf (findMatches root pattern w) = .error (.walk root fault)) ↔
        w.files.BreaksOff Name.isPlain (Utf8.encode root))) := by
  have fails : w.files.BreaksOff Name.isPlain (Utf8.encode root) →
      ∃ fault, outcomeOf (findMatches root pattern w) = .error (.walk root fault) := fun broken =>
    findMatches_of_stumble compiled
      (error_mem_walk_iff.2 (broken.mono fun _ n _ => Name.not_isHidden_of_isPlain))
  have gives : (∃ paths, outcomeOf (findMatches root pattern w) = .ok paths) ∨
      (∃ fault, outcomeOf (findMatches root pattern w) = .error (.walk root fault)) ∧
        w.files.BreaksOff (!·.isHidden) (Utf8.encode root) := by
    by_cases stumbles : ∃ fault, .error fault ∈ visits w.files root
    · exact .inr ⟨findMatches_of_stumble compiled stumbles, error_mem_walk_iff.1 stumbles⟩
    · exact .inl (findMatches_of_steady compiled fun fault met => stumbles ⟨fault, met⟩)
  refine ⟨fun names places entered => entered.length_le, fails, gives, fun spelled => ⟨?_, fails⟩⟩
  rintro ⟨fault, failed⟩
  rcases gives with ⟨paths, whole⟩ | ⟨_, broken⟩
  · simp [whole] at failed
  · exact broken.mono fun p n present kept => (spelled p n present).trans kept

/-- A game with a directory that holds a link to the one around it. -/
def knottedGame : FileSystem :=
  (singleGame.plant "/pz/lib" .directory).plant "/pz/lib/up" (linkTo "..")

theorem findMatches_breaksOff_knotted :
    ArtifactPattern.classFiles.compile = .ok ⟨Glob.anywhere ".class".toList, []⟩ ∧
      knottedGame.BreaksOff Name.isPlain (Utf8.encode "/pz") ∧
      ∃ fault, outcomeOf (findMatches "/pz" .classFiles ⟨knottedGame, [], []⟩) =
        .error (.walk "/pz" fault) := by
  let lib : Name := ⟨Utf8.encode "lib", by decide⟩
  let up : Name := ⟨Utf8.encode "up", by decide⟩
  have outer : knottedGame.at? singlePlace = some .directory :=
    isDirectoryAt_iff.1 (by decide)
  have inner : knottedGame.at? (singlePlace ++ [lib]) = some .directory :=
    isDirectoryAt_iff.1 (by decide)
  have root : knottedGame.resolve (Utf8.encode "/pz") = .ok ⟨singlePlace, 40⟩ := by decide
  have down : knottedGame.resolve (Path.downward (Utf8.encode "/pz") [lib]) =
      .ok ⟨singlePlace ++ [lib], 40⟩ := by
    decide
  have back : knottedGame.resolve (Path.downward (Utf8.encode "/pz") [lib, up]) =
      .ok ⟨singlePlace, 39⟩ := by
    decide
  obtain ⟨target, link⟩ : ∃ target, knottedGame.at? (singlePlace ++ [lib] ++ [up]) =
      some (.link target) :=
    exists_link_of_mem_links (by decide)
  have entered : knottedGame.Enters Name.isPlain (Utf8.encode "/pz") [lib] [singlePlace ++ [lib],
      singlePlace] :=
    .entry (.root (lookup_eq_ok_iff.2 ⟨root, outer⟩)) (by simp [inner]) (by decide)
      (lookup_eq_ok_iff.2 ⟨down, inner⟩) (.inl inner)
  have broken : knottedGame.BreaksOff Name.isPlain (Utf8.encode "/pz") :=
    .inl (.back entered link (lookup_eq_ok_iff.2 ⟨back, outer⟩) (by simp))
  exact ⟨ArtifactPattern.compile_classFiles, broken,
    (findMatches_breaksOff ArtifactPattern.compile_classFiles).2.1 broken⟩

/-! ## Names that are no texts, and texts that are too long -/

/-- A text with slashes in front. -/
def slashed (text : String) : Nat → String
  | 0 => text
  | k + 1 => "/" ++ slashed text k

theorem encode_slashed (text : String) (k : Nat) :
    Utf8.encode (slashed text k) = List.replicate k slash ++ Utf8.encode text := by
  have one : Utf8.encode "/" = [slash] := by decide
  induction k with
  | zero => rfl
  | succ k ih =>
      rw [slashed, Utf8.encode_append, ih, one, List.replicate_succ, List.singleton_append,
        List.cons_append]

theorem segments_slashed (k : Nat) (p : Path) :
    Path.segments (List.replicate k slash ++ p) = p.segments := by
  induction k with
  | zero => rfl
  | succ k ih =>
      rw [List.replicate_succ, List.cons_append, show slash :: (List.replicate k slash ++ p) =
        [] ++ slash :: (List.replicate k slash ++ p) from rfl, Path.segments_append_slash, ih]
      simp

theorem endsInSlash_slashed (k : Nat) {p : Path} (some_ : p ≠ []) :
    Path.endsInSlash (List.replicate k slash ++ p) = p.endsInSlash := by
  rw [Path.endsInSlash, Path.endsInSlash, List.getLast?_append_of_ne_nil _ some_]

/-- Slashes in front of an absolute text make no difference to where it leads, if the system takes
it. -/
theorem resolve_slashed {fs : FileSystem} {p : Path} (k : Nat) (absolute : p.isAbsolute = true)
    (fit : fs.vet p = .ok ()) (short : exceeds (k + p.length) fs.limits.path = false) :
    fs.resolve (List.replicate k slash ++ p) = fs.resolve p := by
  have some_ : p ≠ [] := fun none_ => by simp [none_, Path.isAbsolute] at absolute
  have absolute' : Path.isAbsolute (List.replicate k slash ++ p) = true := by
    cases k with
    | zero => exact absolute
    | succ k => simp [List.replicate_succ, Path.isAbsolute]
  have fit' : fs.vet (List.replicate k slash ++ p) = .ok () := by
    have noZero : 0 ∉ List.replicate k slash ++ p := by simp [zero_not_mem_of_vet fit, slash]
    unfold vet
    rw [if_neg noZero, if_neg (by simp [some_]), List.length_append, List.length_replicate,
      if_neg (by simp [short])]
  have steps : Path.steps (List.replicate k slash ++ p) = p.steps := by
    rw [Path.steps, Path.steps, segments_slashed, endsInSlash_slashed k some_]
  rw [resolve, resolve, fit, fit', Path.origin, Path.origin, if_pos absolute,
    if_pos absolute', steps]

/-- A game with a directory in it. -/
def distantGame : FileSystem := singleGame.plant "/pz/data" .directory

/-- A text for the game that the system just takes. -/
def distantRoot : String := slashed "/pz" 4090

theorem lookup_distantRoot :
    distantGame.lookup (Utf8.encode distantRoot) = .ok (⟨singlePlace, 40⟩, .directory) := by
  have resolved : distantGame.resolve (Utf8.encode "/pz") = .ok ⟨singlePlace, 40⟩ := by
    decide
  refine lookup_eq_ok_iff.2 ⟨?_, isDirectoryAt_iff.1 (by decide)⟩
  rw [distantRoot, encode_slashed,
    resolve_slashed 4090 (by decide) (by decide) (by decide)]
  exact resolved

/-- The text of the directory is too long. -/
theorem tooFar_distantRoot : distantGame.TooFar (!·.isHidden) (Utf8.encode distantRoot) := by
  let data : Name := ⟨Utf8.encode "data", by decide⟩
  refine ⟨[], singlePlace, [], data, .root lookup_distantRoot,
    isDirectoryAt_iff.1 (by decide), by decide, ?_⟩
  have some_ : Utf8.encode "/pz" ≠ [] := by decide
  have nonempty : Utf8.encode distantRoot ≠ [] := by
    rw [distantRoot, encode_slashed]
    exact List.append_ne_nil_of_right_ne_nil _ some_
  have noSlash : Path.endsInSlash (Utf8.encode distantRoot) = false := by
    rw [distantRoot, encode_slashed, endsInSlash_slashed _ some_]
    decide
  rw [downward_concat, show Path.downward (Utf8.encode distantRoot) [] =
    Utf8.encode distantRoot from rfl, length_join_name nonempty noSlash]
  rw [distantRoot, encode_slashed, List.length_append, List.length_replicate]
  decide

/-- A search breaks off though nothing in it leads nowhere or back: there is a link behind a
name that starts with a dot and is no text, or there is no link at all and the text of a
directory is too long. -/
theorem findMatches_breaks_off_otherwise :
    (¬ garbledGame.Misled Name.isPlain (Utf8.encode "/pz") ∧
      ∃ fault, outcomeOf (findMatches "/pz" .classFiles ⟨garbledGame, [], []⟩) =
        .error (.walk "/pz" fault)) ∧
    ¬ distantGame.Misled Name.isPlain (Utf8.encode distantRoot) ∧
      ∃ fault,
        outcomeOf (findMatches distantRoot .classFiles ⟨distantGame, [], []⟩) =
          .error (.walk distantRoot fault) := by
  refine ⟨⟨fun misled => ?_, ?_⟩, fun misled => ?_, ?_⟩
  · -- Without what is behind the name, nothing is in the way.
    obtain ⟨fault, met⟩ := misled.error_mem
    have steady : (untilError (garbledGame.walk Name.isPlain (Utf8.encode "/pz"))).2 = none := by
      decide +kernel
    exact (mem_untilError steady).1 fault met
  · have stumbles : (untilError (visits garbledGame "/pz")).2 ≠ none := by decide +kernel
    refine findMatches_of_stumble ArtifactPattern.compile_classFiles
      (by_contra fun steady => stumbles ?_)
    exact untilError_of_steady fun fault met => steady ⟨fault, met⟩
  · have linkless : distantGame.links = [] := by decide
    cases misled with
    | root lost => simp [lookup_distantRoot] at lost
    | lost _ link _ => exact plain_of_links linkless _ _ link
    | back _ link _ _ => exact plain_of_links linkless _ _ link
  · exact findMatches_of_stumble ArtifactPattern.compile_classFiles tooFar_distantRoot.error_mem

end Searches
end ClassPack
