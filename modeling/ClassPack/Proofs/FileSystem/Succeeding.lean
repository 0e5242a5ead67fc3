import ClassPack.Proofs.FileSystem.Removing
import ClassPack.Proofs.FileSystem.Walking
import ClassPack.Proofs.FileSystem.Writing
import ClassPack.Proofs.Path.Above

/-!
# Succeeding — calls that cannot fail

What a call leaves when it goes well is told elsewhere; here is when it does.

* `Takes fs text` — a text and the names in it are not too long, as all are where they may be of any
  length (`Unbounded`). The texts above are taken, too;
* `Points fs text t` — from a directory that is there a text only goes down to `t`, and ends in its
  name;
* `Passable fs t` — down to `t` there are directories, as far as there is anything:
  `Points.createDirs_ok`;
* `HasRoom fs t` — a file is at `t`, or can be put there: `Points.openForWriting_ok`. Another file
  delivered does not change that, unless one of the two is above the other (`HasRoom.of_delivers`);
* `Points.removeTreeIfThere_missing` and `Points.removeTreeIfThere_directory` — a tree that is not
  there, and one that is;
* `walk_steady` — a walk below which there are no links, where texts may be of any length.
-/

namespace ClassPack

/-- A text without zero bytes that only goes down, and ends in a name. -/
structure Path.Inward (p : Path) : Prop extends Path.Descends p where
  noZero : 0 ∉ p
  ends : ∃ before n, p.segments = before ++ [.name n]

theorem Path.Inward.ne_nil {p : Path} (h : p.Inward) : p ≠ [] := by
  obtain ⟨before, n, ends⟩ := h.ends
  rintro rfl
  simp at ends

theorem Path.inward_relativePath {names : Place} (inner : names ≠ []) :
    Path.Inward names.relativePath where
  toDescends := Path.descends_relativePath names
  noZero := by
    refine Path.zero_not_mem_glue fun piece there => ?_
    obtain ⟨n, _, rfl⟩ := List.mem_map.1 there
    exact n.valid.2.2.2.2
  ends := by
    obtain ⟨before, n, rfl⟩ := (List.eq_nil_or_concat' names).resolve_left inner
    exact ⟨before.map .name, n, by simp [Path.segments_relativePath]⟩

theorem Path.endsInSlash_relativePath (names : Place) :
    Path.endsInSlash names.relativePath = false := by
  by_contra slashed
  have last : names.relativePath.getLast? = some slash := by simpa [Path.endsInSlash] using slashed
  exact Path.relativePath_ne_append_slash names (List.dropLast_append_getLast? slash last).symm

theorem Path.endsInSlash_join_relativePath {names : Place} (base : Path) (inner : names ≠ []) :
    Path.endsInSlash (base.join names.relativePath) = false := by
  have inward := Path.inward_relativePath inner
  rw [Path.endsInSlash_join inward.relative inward.ne_nil, Path.endsInSlash_relativePath]

/-- What is joined to a text without zero bytes is without them, too. -/
theorem Path.zero_not_mem_join {base more : Path} (noZero : 0 ∉ base) (noZero' : 0 ∉ more) :
    0 ∉ base.join more := by
  unfold Path.join
  split
  · exact noZero'
  · split <;> simp [noZero, noZero', slash]

/-- A list that does not end in `a`, with any number of `a` behind it, tells where the last
other member is. -/
theorem eq_of_append_replicate {α : Type} {a b : α} {l m : List α} {j k : Nat} (other : b ≠ a)
    (ends : ∀ s, l ≠ s ++ [a]) (same : l ++ List.replicate k a = m ++ b :: List.replicate j a) :
    l = m ++ [b] := by
  induction k generalizing j with
  | zero =>
      cases j with
      | zero => simpa using same
      | succ j =>
          rw [List.replicate_succ'] at same
          exact absurd (by simpa using same) (ends (m ++ b :: List.replicate j a))
  | succ k ih =>
      rw [List.replicate_succ', ← List.append_assoc] at same
      cases j with
      | zero =>
          have last : [a] = [b] := (List.append_inj' same rfl).2
          exact absurd (List.cons.inj last).1.symm other
      | succ j =>
          rw [List.replicate_succ', ← List.cons_append, ← List.append_assoc] at same
          exact ih (List.append_inj' same rfl).1

/-- Steps that do not go up and hold a name end in one, but for dots. -/
theorem Segment.exists_last_name {s : List Segment} (noUp : .up ∉ s) (some_ : names s ≠ []) :
    ∃ before n j, s = before ++ .name n :: List.replicate j .here := by
  induction s with
  | nil => simp at some_
  | cons step rest ih =>
      have later : Segment.up ∉ rest := fun there => noUp (List.mem_cons_of_mem _ there)
      by_cases more : names rest = []
      · -- Behind the last name are only dots.
        have dots : rest = List.replicate rest.length .here := by
          refine List.eq_replicate_iff.2 ⟨rfl, fun step there => ?_⟩
          cases step with
          | here => rfl
          | up => exact absurd there later
          | name n =>
              have : n ∈ names rest := List.mem_filterMap.2 ⟨_, there, rfl⟩
              simp [more] at this
        cases step with
        | here => simp [more] at some_
        | up => exact absurd (List.mem_cons_self ..) noUp
        | name n => exact ⟨[], n, rest.length, by rw [← dots]; rfl⟩
      · obtain ⟨before, n, j, split⟩ := ih later more
        exact ⟨step :: before, n, j, by rw [split]; rfl⟩

/-- Neither of two places is below the other. -/
def Place.Level (p q : Place) : Prop := (p <+: q → p = q) ∧ (q <+: p → p = q)

instance (p q : Place) : Decidable (Place.Level p q) := inferInstanceAs (Decidable (_ ∧ _))

theorem Place.Level.symm {p q : Place} (h : Level p q) : Level q p :=
  ⟨fun below => (h.2 below).symm, fun below => (h.1 below).symm⟩

/-- What is read from the same directory is level there if it is level. -/
theorem Place.Level.append {p q : Place} (h : Level p q) (dir : Place) :
    Level (dir ++ p) (dir ++ q) :=
  ⟨fun above => by rw [h.1 ((List.prefix_append_right_inj dir).1 above)],
    fun below => by rw [h.2 ((List.prefix_append_right_inj dir).1 below)]⟩

namespace FileSystem

variable {fs gs : FileSystem} {p q t u : Place} {s : List Segment} {text : Path} {n : Name}
  {content : Content}

/-- Names and texts may be of any length. -/
structure Unbounded (fs : FileSystem) : Prop where
  name : fs.limits.name = none
  path : fs.limits.path = none

theorem Unbounded.of_within (h : fs.Unbounded) (more : fs.Within gs) : gs.Unbounded where
  name := by rw [more.limits, h.name]
  path := by rw [more.limits, h.path]

/-- What is shorter than a length that is not too great is not too long. -/
theorem exceeds_of_le {bound : Option Nat} {l l' : Nat} (le : l ≤ l')
    (short : exceeds l' bound = false) : exceeds l bound = false := by
  cases bound with
  | none => rfl
  | some bound =>
      simp only [exceeds, decide_eq_false_iff_not] at short ⊢
      omega

/-- A text is not too long, and neither is a name in it. -/
structure Takes (fs : FileSystem) (text : Path) : Prop where
  path : exceeds text.length fs.limits.path = false
  name : ∀ n ∈ Segment.names text.segments, exceeds n.bytes.length fs.limits.name = false

theorem Unbounded.takes (h : fs.Unbounded) (text : Path) : fs.Takes text where
  path := by rw [h.path]; rfl
  name _ _ := by rw [h.name]; rfl

namespace Takes

theorem of_within (h : fs.Takes text) (more : fs.Within gs) : gs.Takes text where
  path := by rw [more.limits, h.path]
  name n there := by rw [more.limits, h.name n there]

theorem vet (h : fs.Takes text) (noZero : 0 ∉ text) (some_ : text ≠ []) : fs.vet text = .ok () := by
  simp [FileSystem.vet, noZero, some_, h.path]

/-- With a text, the text above it is taken, too. -/
theorem upper {upper : Path} (h : fs.Takes text) (above : Path.Upper text upper) :
    fs.Takes upper where
  path := exceeds_of_le (Path.length_le_of_parent? above.parent) h.path
  name n there := by
    obtain ⟨k, step, j, _, steps⟩ := above.steps
    exact h.name n (by rw [steps]; simp [there])

theorem join {base more : Path} (h : fs.Takes base) (descends : more.Descends)
    (path : exceeds (base.join more).length fs.limits.path = false)
    (name : ∀ n ∈ Segment.names more.segments, exceeds n.bytes.length fs.limits.name = false) :
    fs.Takes (base.join more) where
  path := path
  name n there := by
    rw [Path.segments_join descends.relative, Segment.names_append, List.mem_append] at there
    exact there.elim (h.name n) (name n)

end Takes

/-- Whoever arrives has met no name that is too long. -/
theorem not_exceeds_of_follow {links : Nat} {standing : Standing}
    (h : fs.follow links p s = .ok standing) :
    ∀ n ∈ Segment.names s, exceeds n.bytes.length fs.limits.name = false := by
  intro n there
  obtain ⟨step, there, named⟩ := List.mem_filterMap.1 there
  obtain ⟨before, after, rfl⟩ := List.append_of_mem there
  obtain ⟨m, _, onward⟩ := follow_prefix h
  cases step with
  | name n' =>
      obtain rfl : n' = n := by simpa using named
      exact (follow_name_ok onward).2.1
  | here => cases named
  | up => cases named

/-- A text that arrives somewhere is taken. -/
theorem Arrives.takes (arrive : fs.Arrives text p) : fs.Takes text := by
  obtain ⟨links, resolved⟩ := arrive
  obtain ⟨fit, way⟩ := resolve_eq_ok_iff.1 resolved
  exact ⟨not_exceeds_of_vet fit, fun n there => not_exceeds_of_follow way n
    (by simp [Path.steps, there])⟩

theorem Unbounded.vet (h : fs.Unbounded) (noZero : 0 ∉ text) (some_ : text ≠ []) :
    fs.vet text = .ok () :=
  (h.takes text).vet noZero some_

/-! ## Room for directories and files -/

/-- Down to a place there are directories, as far as there is anything. -/
def Passable (fs : FileSystem) (t : Place) : Prop :=
  ∀ q, q <+: t → fs.at? q = none ∨ fs.at? q = some .directory

/-- A file is at a place or can be put there: above it there are directories, as far as there
is anything. -/
structure HasRoom (fs : FileSystem) (t : Place) : Prop where
  above : ∀ q, q <+: t → q ≠ t → fs.at? q = none ∨ fs.at? q = some .directory
  free : fs.at? t = none ∨ ∃ content, fs.at? t = some (.file content)

theorem Passable.of_directory (there : fs.at? t = some .directory) : fs.Passable t := by
  intro q above
  by_cases here : q = t
  · exact .inr (here ▸ there)
  · exact .inr (at?_of_above (by simp [there]) above here)

/-- In an empty directory nothing is in the way. -/
theorem Passable.of_empty (directory : fs.at? u = some .directory)
    (empty : ∀ n, fs.at? (u ++ [n]) = none) (names : Place) : fs.Passable (u ++ names) := by
  intro q above
  rcases List.prefix_or_prefix_of_prefix above (List.prefix_append u names) with higher | ⟨r, rfl⟩
  · exact Passable.of_directory directory q higher
  · cases r with
    | nil => exact .inr (by simpa using directory)
    | cons n r => exact .inl (by simpa using at?_append_of_missing (empty n) r)

theorem HasRoom.of_empty {names : Place} (directory : fs.at? u = some .directory)
    (empty : ∀ n, fs.at? (u ++ [n]) = none) (inner : names ≠ []) : fs.HasRoom (u ++ names) where
  above q above _ := Passable.of_empty directory empty names q above
  free := by
    obtain ⟨n, r, rfl⟩ := List.exists_cons_of_ne_nil inner
    exact .inl (by simpa using at?_append_of_missing (empty n) r)

theorem HasRoom.passable (h : fs.HasRoom (u ++ [n])) : fs.Passable u := fun q above =>
  h.above q (above.trans (List.prefix_append ..)) fun same => by
    have shorter := above.length_le
    simp only [same, List.length_append, List.length_singleton] at shorter
    omega

theorem HasRoom.not_link (h : fs.HasRoom t) (target : Path) : fs.at? t ≠ some (.link target) := by
  rcases h.free with missing | ⟨_, file⟩ <;> simp_all

/-- Another file delivered leaves the room as it was, if neither of the two is below the other. -/
theorem HasRoom.of_delivers (h : fs.HasRoom t) (delivers : Delivers q content fs gs)
    (level : Place.Level q t) : gs.HasRoom t where
  above r higher other := by
    rw [delivers.at?]
    split
    · rename_i here
      subst here
      exact absurd (level.1 higher) other
    · split
      · exact .inr rfl
      · exact h.above r higher other
  free := by
    rw [delivers.at?]
    split
    · exact .inr ⟨_, rfl⟩
    · split
      · rename_i other above
        exact absurd (level.2 above).symm other
      · exact h.free

/-! ## Going down -/

/-- Steps that do not go up lead down where only directories are in the way. -/
theorem Leads.of_passable (passable : fs.Passable (p ++ Segment.names s)) (noUp : Segment.up ∉ s) :
    fs.Leads p s (p ++ Segment.names s) := by
  refine .of_plain_way (fun r above target isLink => ?_) noUp
  rcases passable (p ++ r) ((List.prefix_append_right_inj p).2 above) with missing | directory
  · simp [isLink] at missing
  · simp [isLink] at directory

/-- Such steps can be taken if the last directory is there, and else something is missing. -/
theorem follow_of_passable
    (short : ∀ n ∈ Segment.names s, exceeds n.bytes.length fs.limits.name = false) (links : Nat)
    (directory : fs.at? p = some .directory) (passable : fs.Passable (p ++ Segment.names s))
    (noUp : Segment.up ∉ s) : fs.follow links p s =
      if (fs.at? (p ++ Segment.names s)).isNone then .error .noEntry else .ok ⟨p ++ Segment.names s,
          links⟩ := by
  induction s generalizing p with
  | nil => simp [follow_nil, directory]
  | cons step rest ih =>
      have later : Segment.up ∉ rest := fun there => noUp (List.mem_cons_of_mem _ there)
      rw [show step :: rest = [step] ++ rest from rfl, follow_append]
      cases step with
      | here =>
          have stay : fs.follow links p [.here] = .ok ⟨p, links⟩ := by
            simp [follow, scan, readable, directory]
          rw [stay]
          exact ih short directory passable later
      | up => exact absurd (List.mem_cons_self ..) noUp
      | name n =>
          rcases passable (p ++ [n]) (by simp) with missing | there
          · have stop : fs.follow links p [.name n] = .error .noEntry := by
              simp [follow, scan, enterable, directory, short n (by simp), missing]
            have gone := at?_append_of_missing missing (Segment.names rest)
            rw [stop, if_pos (by simpa using gone)]
          · rw [follow_name_of_plain links there (by simp)]
            simpa using ih (fun m inside => short m (by simp [inside])) there
              (by simpa using passable) later

/-- Dots lead nowhere else. -/
theorem follow_dots_ok {links k : Nat} {standing : Standing}
    (h : fs.follow links p (List.replicate k .here) = .ok standing) :
    (⟨p, links⟩ : Standing) = standing := by
  induction k with
  | zero => simpa [follow_nil] using h
  | succ k ih => exact ih (follow_here_ok h).2

/-- A directory that is there need not be made. -/
theorem createDirs_of_isDir (there : fs.isDir text = true) : createDirs text fs = .ok () fs := by
  obtain ⟨p, ⟨links, resolved⟩, _⟩ := isDir_iff.1 there
  have some_ : text ≠ [] := fun none_ => by
    simp [resolve, vet, none_, bind, Except.bind] at resolved
  have stop : fs.makeDir text = .error (.os .exists) := by
    unfold makeDir
    rcases locate_of_resolve resolved with ⟨last, found, _⟩ | ⟨dir, n, found, stands⟩
    · rw [found]
      rfl
    · obtain ⟨e, present⟩ := Option.ne_none_iff_exists'.1 stands
      rw [found]
      simp [present, bind, Except.bind]
  obtain ⟨above, chain⟩ := Path.ancestors_eq_cons some_
  simp [createDirs, chain, createChain, stop, there]

theorem createDirs_of_makeDir (some_ : text ≠ []) (made : fs.makeDir text = .ok gs) :
    createDirs text fs = .ok () gs := by
  obtain ⟨above, chain⟩ := Path.ancestors_eq_cons some_
  simp [createDirs, chain, createChain, made]

section Upper

variable {upper : Path} (above : Path.Upper text upper)

include above

/-- Directories above are made only if the first attempt misses one, and then there is one
more attempt. -/
theorem createDirs_cases (made : createDirs text fs = .ok () gs) :
    ∃ partly, (partly = fs ∨ fs.makeDir text = .error (.os .noEntry) ∧
      createDirs upper fs = .ok () partly) ∧ (partly.makeDir text = .ok gs ∨
      partly.isDir text = true ∧ gs = partly) := by
  unfold createDirs at made
  rw [above.ancestors] at made
  unfold createChain at made
  split at made
  · rename_i first
    cases made
    exact ⟨fs, .inl rfl, .inl first⟩
  · rename_i missing
    split at made
    · cases made
    · rename_i partly upward
      refine ⟨partly, .inr ⟨missing, upward⟩, ?_⟩
      split at made
      · rename_i again
        cases made
        exact .inl again
      · split at made
        · rename_i there
          cases made
          exact .inr ⟨there, rfl⟩
        · cases made
  · split at made
    · rename_i there
      cases made
      exact ⟨fs, .inl rfl, .inr ⟨there, rfl⟩⟩
    · cases made

theorem createDirs_of_upper {partly : FileSystem}
    (missing : fs.makeDir text = .error (.os .noEntry))
    (upward : createDirs upper fs = .ok () partly)
    (tried : (∃ gs, partly.makeDir text = .ok gs) ∨ partly.isDir text = true) :
    ∃ gs, createDirs text fs = .ok () gs := by
  unfold createDirs at upward ⊢
  rw [above.ancestors]
  unfold createChain
  rw [missing]
  dsimp only
  rw [upward]
  dsimp only
  rcases tried with ⟨gs, made⟩ | there
  · exact ⟨gs, by rw [made]⟩
  · cases again : partly.makeDir text with
    | ok gs => exact ⟨gs, rfl⟩
    | error e => exact ⟨partly, by simp [there]⟩

/-! ### Final dots -/

/-- A text with a final dot makes nothing itself: its directory is there once those above are
made. -/
theorem isDir_of_createDirs_upper (final : text.segments.getLast? = some .here)
    (notYet : fs.isDir text = false) (made : createDirs text fs = .ok () gs) :
    createDirs upper fs = .ok () gs ∧ gs.isDir text = true := by
  have refused : ∀ {fs gs : FileSystem}, fs.makeDir text ≠ .ok gs := fun made => by
    obtain ⟨_, n, _, found, _⟩ := makeDir_ok made
    obtain ⟨_, _, ends, _⟩ := locate_entry found
    simp [ends] at final
  obtain ⟨partly, upward, made | ⟨there, rfl⟩⟩ := createDirs_cases above made
  · exact absurd made refused
  · rcases upward with rfl | ⟨_, upward⟩
    · simp [notYet] at there
    · exact ⟨upward, there⟩

/-- The directories made on the way above a place are not that place. -/
theorem missing_of_made_upper (steady : fs.Steady text) (leads : fs.LeadsTo text t)
    (missing : fs.at? t = none) (made : MadeOnWay upper fs gs) : gs.at? t = none := by
  rcases made.at? t with same | ⟨_, _, before, m, rest, steps, way⟩
  · rw [same, missing]
  obtain ⟨k, step, j, other, steps'⟩ := above.steps
  have some_ : upper ≠ [] := by
    rintro rfl
    simp at steps
  have whole :
      text.segments = before ++ .name m ::
        (rest ++ List.replicate k .here ++ step :: List.replicate j .here) := by
    rw [steps', steps]
    simp
  rw [above.origin_eq some_] at way
  have noUp := steady.noUp_of_missing whole way missing
  -- From there the text would go on and still stay where it is.
  have stay : t = t ++ Segment.names (rest ++ List.replicate k .here ++
      step :: List.replicate j .here) := by
    have down :=
      way.append (.of_plain (fun r target => by simp [at?_append_of_missing missing r]) noUp)
    rw [List.append_assoc, List.singleton_append, ← whole] at down
    exact leads.unique down
  have none_ := List.append_cancel_left ((List.append_nil t).trans stay)
  cases step with
  | here => exact absurd rfl other
  | up => exact absurd (by simp) noUp
  | name n' => simp [Segment.names] at none_

end Upper

/-- Where there is nothing yet, no directory is made by way of a final dot. -/
theorem last_ne_here_of_createDirs (noZero : 0 ∉ text) (named : Segment.names text.segments ≠ [])
    (steady : fs.Steady text) (leads : fs.LeadsTo text t) (missing : fs.at? t = none)
    (made : createDirs text fs = .ok () gs) : text.segments.getLast? ≠ some .here := by
  intro final
  have notYet : fs.isDir text = false := by
    by_contra there
    obtain ⟨q, arrive, directory⟩ := isDir_iff.1 (by simpa using there)
    obtain rfl := arrive.leads.unique leads
    simp [missing] at directory
  obtain ⟨n, there⟩ := List.exists_mem_of_ne_nil _ named
  obtain ⟨step, there, named⟩ := List.mem_filterMap.1 there
  obtain ⟨upper, above⟩ := Path.exists_upper noZero there (by rintro rfl; cases named)
  obtain ⟨upward, isDir⟩ := isDir_of_createDirs_upper above final notYet made
  have onWay := createDirs_made upper fs
  rw [upward, leftBy_ok] at onWay
  obtain ⟨q, arrive, directory⟩ := isDir_iff.1 isDir
  obtain rfl := (onWay.grows.leadsTo_iff.1 arrive.leads).unique leads
  simp [missing_of_made_upper above steady leads missing onWay] at directory

/-- A text without zero bytes that from a directory that is there goes down to `t`, and ends
in its name. -/
structure Points (fs : FileSystem) (text : Path) (t : Place) : Prop where
  noZero : 0 ∉ text
  way : ∃ front back n m, text.segments = front ++ back ++ [.name n] ∧
    fs.follow fs.limits.links (text.origin fs.workingDir) front = .ok m ∧
      fs.at? m.place = some .directory ∧ Segment.up ∉ back ∧
      t = m.place ++ Segment.names back ++ [n]

/-- Below a directory that a text leads to. -/
theorem Arrives.points_join {base more : Path} (arrive : fs.Arrives base p)
    (directory : fs.at? p = some .directory) (inward : more.Inward) :
    fs.Points (base.join more) (p ++ Segment.names more.segments) := by
  obtain ⟨descends, noZero, before, n, ends⟩ := inward
  obtain ⟨links, way⟩ := arrive
  obtain ⟨fit, way⟩ := resolve_eq_ok_iff.1 way
  obtain ⟨m, front, stay⟩ := follow_prefix way
  have here : m.place = p := by
    have := follow_slash_ok stay
    cases this
    rfl
  refine ⟨Path.zero_not_mem_join (zero_not_mem_of_vet fit) noZero, base.segments, before, n, m, ?_,
    ?_, here ▸ directory, fun up => descends.noUp (by simp [ends, up]), by simp [ends, here]⟩
  · rw [Path.segments_join descends.relative, ends, List.append_assoc]
  · rwa [Path.origin_join descends.relative]

/-- A directory that is an entry goes with all below it, if it is one still once it is empty. -/
theorem removeTreeIfThere_of_entry {slash : Bool} (found : fs.locate text = .ok (.entry u n slash))
    (still : (fs.clear (u ++ [n])).locate text = .ok (.entry u n slash))
    (arrive : fs.Arrives text (u ++ [n])) (there : fs.at? (u ++ [n]) = some .directory) :
    removeTreeIfThere text fs = .ok () ((fs.clear (u ++ [n])).remove (u ++ [n])) := by
  obtain ⟨links, way⟩ := arrive
  have seen : fs.lookup text = .ok (⟨u ++ [n], links⟩, .directory) :=
    lookup_eq_ok_iff.2 ⟨way, there⟩
  have stat : fs.lstat text = .ok .directory := by
    unfold lstat
    rw [found]
    cases slash <;> simp [there, seen, bind, Except.bind, Except.map]
  have there' : (fs.clear (u ++ [n])).at? (u ++ [n]) = some .directory := by simp [at?_clear, there]
  have empty : (fs.clear (u ++ [n])).children (u ++ [n]) = [] := by
    refine List.eq_nil_iff_forall_not_mem.2 fun ⟨m, e⟩ child => ?_
    have stands := mem_children.1 child
    rw [at?_clear, if_pos ⟨by simp, List.prefix_append ..⟩] at stands
    cases stands
  have removed : (fs.clear (u ++ [n])).removeEmptyDir text =
      .ok ((fs.clear (u ++ [n])).remove (u ++ [n])) := by
    unfold removeEmptyDir
    rw [still]
    simp [there', empty, bind, Except.bind]
  simp [removeTreeIfThere, removeTree, stat, seen, removed]

/-- An entry that is not there is left alone. -/
theorem removeTreeIfThere_of_missing {slash : Bool}
    (found : fs.locate text = .ok (.entry u n slash)) (missing : fs.at? (u ++ [n]) = none) :
    removeTreeIfThere text fs = .ok () fs := by
  have stat : fs.lstat text = .error (.os .noEntry) := by
    unfold lstat
    rw [found]
    simp [missing, bind, Except.bind]
  simp [removeTreeIfThere, removeTree, stat]

namespace Points

theorem of_within (h : fs.Points text t) (more : fs.Within gs) (starts : fs.Starts text) :
    gs.Points text t where
  noZero := h.noZero
  way := by
    obtain ⟨front, back, n, m, steps, way, directory, noUp, place⟩ := h.way
    refine ⟨front, back, n, m, steps, ?_, more.directory directory, noUp, place⟩
    rw [more.limits, more.workingDir]
    exact follow_of_within more starts way

/-- Further down from there. -/
theorem join {more : Path} (h : fs.Points text t) (inward : more.Inward) :
    fs.Points (text.join more) (t ++ Segment.names more.segments) where
  noZero := Path.zero_not_mem_join h.noZero inward.noZero
  way := by
    obtain ⟨descends, noZero, before, n, ends⟩ := inward
    obtain ⟨front, back, n', m, steps, way, directory, noUp, rfl⟩ := h.way
    have noUp' : Segment.up ∉ before := fun up => descends.noUp (by simp [ends, up])
    refine ⟨front, back ++ .name n' :: before, n, m, ?_, ?_,
      directory, by simp [noUp, noUp'], by simp [ends]⟩
    · rw [Path.segments_join descends.relative, steps, ends]
      simp
    · rwa [Path.origin_join descends.relative]

theorem ne_nil (h : fs.Points text t) : text ≠ [] := by
  obtain ⟨front, back, n, m, steps, _⟩ := h.way
  rintro rfl
  simp at steps

theorem vet (h : fs.Points text t) (takes : fs.Takes text) : fs.vet text = .ok () :=
  takes.vet h.noZero h.ne_nil

/-- There is a name to point at. -/
theorem exists_name (h : fs.Points text t) : ∃ u n, t = u ++ [n] := by
  obtain ⟨_, _, n, _, _, _, _, _, place⟩ := h.way
  exact ⟨_, n, place⟩

theorem exists_upper (h : fs.Points text t) : ∃ upper, Path.Upper text upper := by
  obtain ⟨_, _, n, _, steps, _⟩ := h.way
  exact Path.exists_upper h.noZero (show Segment.name n ∈ text.segments by simp [steps]) (by simp)

/-- The steps before the name lead to the directory above, if it is there. -/
theorem exists_before (h : fs.Points text (u ++ [n])) (takes : fs.Takes text)
    (passable : fs.Passable u) : ∃ before left, text.segments = before ++ [.name n] ∧
      fs.follow fs.limits.links (text.origin fs.workingDir) before =
        if (fs.at? u).isNone then .error .noEntry else .ok ⟨u, left⟩ := by
  obtain ⟨front, back, n', m, steps, way, directory, noUp, place⟩ := h.way
  obtain ⟨rfl, last⟩ := List.append_inj' place rfl
  obtain rfl : n = n' := by simpa using last
  refine ⟨front ++ back, m.links, steps, ?_⟩
  rw [follow_append, way]
  exact follow_of_passable (fun n inside => takes.name n (by simp [steps, inside])) m.links
    directory passable noUp

/-- A text leads where it points. -/
theorem leadsTo (h : fs.Points text t)
    (room : ∀ q, q <+: t → q ≠ t → fs.at? q = none ∨ fs.at? q = some .directory)
    (plain : ∀ target, fs.at? t ≠ some (.link target)) : fs.LeadsTo text t := by
  obtain ⟨front, back, n, m, steps, way, directory, noUp, rfl⟩ := h.way
  have passable : fs.Passable (m.place ++ Segment.names back) := fun q above =>
    room q (above.trans (List.prefix_append ..)) fun same => by
      have shorter := above.length_le
      simp only [same, List.length_append, List.length_singleton] at shorter
      omega
  rw [LeadsTo, steps]
  exact ((Leads.of_follow way).append (.of_passable passable noUp)).append (.name plain (.done _))

section Located

variable (h : fs.Points text (u ++ [n])) (takes : fs.Takes text)

include h takes

/-- In a directory that is there the entry is found. -/
theorem locateFrom_entry (directory : fs.at? u = some .directory) :
    ∃ left, fs.locateFrom fs.limits.links (text.origin fs.workingDir) text.segments
      text.endsInSlash = .ok (.entry u n text.endsInSlash, left) := by
  obtain ⟨before, left, steps, way⟩ := h.exists_before takes (.of_directory directory)
  rw [if_neg (by simp [directory])] at way
  refine ⟨left, ?_⟩
  unfold locateFrom
  rw [steps]
  simp [way, bind, Except.bind, enterable, directory, takes.name n (by simp [steps])]

theorem locate_entry (directory : fs.at? u = some .directory) :
    fs.locate text = .ok (.entry u n text.endsInSlash) := by
  obtain ⟨left, found⟩ := h.locateFrom_entry takes directory
  unfold locate
  rw [h.vet takes, found]
  rfl

/-- In a directory that is missing it is not. -/
theorem locate_missing (passable : fs.Passable u) (missing : fs.at? u = none) :
    fs.locate text = .error (.os .noEntry) := by
  obtain ⟨before, left, steps, way⟩ := h.exists_before takes passable
  rw [if_pos (by simp [missing])] at way
  unfold locate locateFrom
  rw [h.vet takes, steps]
  simp [way, bind, Except.bind, refused]

/-- A directory is arrived at, and a file if no slash comes after it. -/
theorem arrives (there : fs.at? (u ++ [n]) = some .directory ∨
      (∃ content, fs.at? (u ++ [n]) = some (.file content)) ∧ text.endsInSlash = false) :
    fs.Arrives text (u ++ [n]) := by
  have stands : fs.at? (u ++ [n]) ≠ none := by
    rcases there with directory | ⟨⟨_, file⟩, _⟩ <;> simp [*]
  have directory : fs.at? u = some .directory := fs.at?_parent stands
  obtain ⟨before, left, steps, way⟩ := h.exists_before takes (.of_directory directory)
  rw [if_neg (by simp [directory])] at way
  have last : fs.follow left u [.name n] = .ok ⟨u ++ [n], left⟩ := by
    rcases there with here | ⟨⟨content, here⟩, _⟩ <;> exact follow_name_of_plain left here (by simp)
  refine ⟨left, resolve_eq_ok_iff.2 ⟨h.vet takes, ?_⟩⟩
  rw [Path.steps, steps, List.append_assoc, follow_append, way]
  show fs.follow left u ([.name n] ++ _) = _
  rw [follow_append, last]
  rcases there with here | ⟨_, noSlash⟩
  · cases text.endsInSlash with
    | true => simp [follow, scan, readable, here]
    | false => exact follow_nil ..
  · rw [noSlash]
    exact follow_nil ..

end Located

/-! ## Making directories -/

/-- In a directory that is there a directory is made, unless it is there already. -/
theorem makeDir_or_isDir (h : fs.Points text (u ++ [n])) (takes : fs.Takes text)
    (directory : fs.at? u = some .directory)
    (free : fs.at? (u ++ [n]) = none ∨ fs.at? (u ++ [n]) = some .directory) :
    (∃ gs, fs.makeDir text = .ok gs) ∨ fs.makeDir text = .error (.os .exists) ∧
    fs.isDir text = true := by
  unfold makeDir
  rw [h.locate_entry takes directory]
  rcases free with missing | there
  · exact .inl ⟨fs.put u n .directory, by simp [missing, bind, Except.bind]⟩
  · refine .inr ⟨by simp [there, bind, Except.bind], ?_⟩
    exact isDir_iff.2 ⟨_, h.arrives takes (.inl there), there⟩

section Upper

variable {upper : Path} (h : fs.Points text (u ++ [n])) (above : Path.Upper text upper)

include h above

/-- If the directory above is missing, the text above points at it. -/
theorem upper_of_missing (steady : fs.Steady text) (missing : fs.at? u = none) :
    fs.Points upper u ∧ fs.Steady upper ∧ upper.segments.length < text.segments.length := by
  obtain ⟨front, back, n₀, m, steps, way, directory, noUp, place⟩ := h.way
  obtain ⟨rfl, _⟩ := List.append_inj' place rfl
  have named : Segment.names back ≠ [] := by
    intro none_
    simp [none_, directory] at missing
  -- The last name before the final one is the last step of the text above.
  obtain ⟨between, n', j, split⟩ := Segment.exists_last_name noUp named
  obtain ⟨k, same⟩ := above.steps_of_name steps
  have upward : upper.segments = front ++ between ++ [.name n'] := by
    refine eq_of_append_replicate (a := .here) (j := j) (k := k) (by simp) (fun s final => ?_)
      (by rw [← same, split]; simp)
    obtain rfl := above.final s final
    have : Segment.name n' ∈ upper.segments ++ List.replicate k .here := by
      rw [← same, split]
      simp
    simp [final, List.mem_replicate] at this
  have some_ : upper ≠ [] := by
    rintro rfl
    simp at upward
  have origin := above.origin_eq some_ fs.workingDir
  refine ⟨⟨above.noZero, front, between, n', m, upward, by rw [origin]; exact way, directory,
    fun up => noUp (by simp [split, up]), by simp [split, Segment.names]⟩,
    ⟨?_, fun first rest up => ?_⟩, ?_⟩
  · unfold Starts
    rw [origin]
    exact steady.starts
  · rw [origin]
    exact steady.up first (rest ++ List.replicate k .here ++ [.name n₀])
      (by rw [steps, same, up]; simp)
  · rw [upward, steps, split]
    simp only [List.length_append, List.length_cons]
    omega

/-- If it is there, the text above leads to it. -/
theorem arrives_upper (takes : fs.Takes text) (directory : fs.at? u = some .directory)
    (some_ : upper ≠ []) : fs.Arrives upper u := by
  obtain ⟨before, left, steps, way⟩ := h.exists_before takes (.of_directory directory)
  rw [if_neg (by simp [directory])] at way
  obtain ⟨k, rfl⟩ := above.steps_of_name steps
  obtain ⟨m, front, dots⟩ := follow_prefix way
  obtain rfl : m = ⟨u, left⟩ := follow_dots_ok dots
  refine ⟨left, resolve_eq_ok_iff.2 ⟨(takes.upper above).vet above.noZero some_, ?_⟩⟩
  rw [Path.steps, above.origin_eq some_, follow_append, front]
  cases upper.endsInSlash with
  | true => simp [follow, scan, readable, directory]
  | false => exact follow_nil ..

end Upper

/-- What is made when a text can be read is the directory it points at, with those above. -/
theorem raised_of_createDirs (h : fs.Points text t) (steady : fs.Steady text)
    (passable : fs.Passable t) (made : createDirs text fs = .ok () gs) : Raised t fs gs := by
  obtain ⟨t', arrive, raised⟩ := createDirs_raised h.ne_nil steady made
  have leads : fs.LeadsTo text t :=
      h.leadsTo (fun q above _ => passable q above) fun target isLink => by
    rcases passable t (List.prefix_refl _) with missing | directory <;> simp_all
  rwa [leads.unique (raised.toGrows.leadsTo_iff.1 arrive.leads)]

theorem createDirs_ok (h : fs.Points text t) (takes : fs.Takes text) (steady : fs.Steady text)
    (passable : fs.Passable t) : ∃ gs, createDirs text fs = .ok () gs := by
  -- Induction on the number of steps: the text above asks for fewer.
  induction size : text.segments.length using Nat.strongRecOn generalizing text t with
  | ind size ih =>
    subst size
    obtain ⟨u, n, rfl⟩ := h.exists_name
    have upward : fs.Passable u := fun q higher => passable q (higher.trans (List.prefix_append ..))
    have free := passable (u ++ [n]) (List.prefix_refl _)
    obtain ⟨upper, above⟩ := h.exists_upper
    rcases upward u (List.prefix_refl _) with missing | there
    · -- The directory above is made first, and then one more attempt is made.
      obtain ⟨points, steady', fewer⟩ := h.upper_of_missing above steady missing
      obtain ⟨gs, made⟩ := ih _ fewer points (takes.upper above) steady' upward rfl
      have raised := points.raised_of_createDirs steady' upward made
      have directory : gs.at? u = some .directory := by simp [raised.at?]
      have free' : gs.at? (u ++ [n]) = none ∨ gs.at? (u ++ [n]) = some .directory := by
        rw [raised.at?]
        split
        · exact .inr rfl
        · exact free
      have first : fs.makeDir text = .error (.os .noEntry) := by
        unfold makeDir
        rw [h.locate_missing takes upward missing]
        rfl
      have points' := h.of_within raised.toWithin steady.starts
      exact createDirs_of_upper above first made
        ((points'.makeDir_or_isDir (takes.of_within raised.toWithin) directory free').imp
          id And.right)
    · rcases h.makeDir_or_isDir takes there free with ⟨gs, made⟩ | ⟨_, isDir⟩
      · exact ⟨gs, createDirs_of_makeDir h.ne_nil made⟩
      · exact ⟨fs, createDirs_of_isDir isDir⟩

section Upper

variable {upper : Path} (h : fs.Points text (u ++ [n])) (above : Path.Upper text upper)
  (takes : fs.Takes text)

include h above takes

/-- The directory above what a text points at need not be made if it is there. -/
theorem createDirs_upper_of_directory (there : fs.at? u = some .directory) :
    createDirs upper fs = .ok () fs := by
  by_cases some_ : upper = []
  · subst some_
    rfl
  · exact createDirs_of_isDir (isDir_iff.2 ⟨u, h.arrives_upper above takes there some_, there⟩)

/-- If it is missing it can be made, with those above. -/
theorem createDirs_upper (steady : fs.Steady text) (passable : fs.Passable u) :
    ∃ gs, createDirs upper fs = .ok () gs ∧ Raised u fs gs := by
  rcases passable u (List.prefix_refl _) with missing | there
  · obtain ⟨points, steady', _⟩ := h.upper_of_missing above steady missing
    obtain ⟨gs, made⟩ := points.createDirs_ok (takes.upper above) steady' passable
    exact ⟨gs, made, points.raised_of_createDirs steady' passable made⟩
  · refine ⟨fs, h.createDirs_upper_of_directory above takes there, .refl fs, fun q => ?_⟩
    split
    · rename_i higher
      exact (Passable.of_directory there q higher).resolve_left
        (at?_ne_none_of_above (by simp [there]) higher)
    · rfl

end Upper

/-! ## Writing files -/

theorem openForWriting_ok (h : fs.Points text t) (takes : fs.Takes text)
    (directory : ∀ u n, t = u ++ [n] → fs.at? u = some .directory)
    (free : fs.at? t = none ∨ ∃ content, fs.at? t = some (.file content))
    (noSlash : text.endsInSlash = false) : ∃ site gs, openForWriting text fs = .ok site gs := by
  obtain ⟨u, n, rfl⟩ := h.exists_name
  obtain ⟨left, found⟩ := h.locateFrom_entry takes (directory u n rfl)
  have site : fs.writingSite text = .ok (u, n) := by
    unfold writingSite creationSite
    rw [h.vet takes, found, noSlash]
    rcases free with missing | ⟨content, file⟩ <;> simp [*, bind, Except.bind, refused]
  exact ⟨(u, n), fs.put u n (.file (.plain [])), by simp [openForWriting, site]⟩

theorem unlink_ok_of_file (h : fs.Points text t) (takes : fs.Takes text)
    (file : fs.at? t = some (.file content)) (noSlash : text.endsInSlash = false) :
    ∃ gs, fs.unlink text = .ok gs := by
  obtain ⟨u, n, rfl⟩ := h.exists_name
  have found := h.locate_entry takes (fs.at?_parent (n := n) (by simp [file]))
  refine ⟨fs.remove (u ++ [n]), ?_⟩
  unfold unlink
  rw [found, noSlash]
  simp [file, bind, Except.bind]

/-! ## Taking trees away -/

/-- A tree that is not there is left alone. -/
theorem removeTreeIfThere_missing (h : fs.Points text t) (takes : fs.Takes text)
    (passable : fs.Passable t) (missing : fs.at? t = none) :
    removeTreeIfThere text fs = .ok () fs := by
  obtain ⟨u, n, rfl⟩ := h.exists_name
  rcases passable u (List.prefix_append ..) with gone | directory
  · have above : fs.Passable u := fun q higher => passable q (higher.trans (List.prefix_append ..))
    have stat : fs.lstat text = .error (.os .noEntry) := by
      unfold lstat
      rw [h.locate_missing takes above gone]
      rfl
    simp [removeTreeIfThere, removeTree, stat]
  · exact removeTreeIfThere_of_missing (h.locate_entry takes directory) missing

/-- A tree that is there goes, if the text still points at it once it is empty. -/
theorem removeTreeIfThere_directory (h : fs.Points text t) (still : (fs.clear t).Points text t)
    (takes : fs.Takes text) (there : fs.at? t = some .directory) :
    ∃ gs, removeTreeIfThere text fs = .ok () gs := by
  obtain ⟨u, n, rfl⟩ := h.exists_name
  have directory : fs.at? u = some .directory := fs.at?_parent (n := n) (by simp [there])
  have directory' : (fs.clear (u ++ [n])).at? u = some .directory := by
    rw [at?_clear, if_neg, directory]
    rintro ⟨_, above⟩
    have shorter := above.length_le
    simp only [List.length_append, List.length_singleton] at shorter
    omega
  have takes' : (fs.clear (u ++ [n])).Takes text := ⟨takes.path, takes.name⟩
  exact ⟨_, removeTreeIfThere_of_entry (h.locate_entry takes directory)
    (still.locate_entry takes' directory') (h.arrives takes (.inl there)) there⟩

end Points

theorem copy_ok_of_open {source target : Path} {site : Place × Name} {opened : FileSystem}
    (reading : fs.readingSite source = .ok p)
    (opening : openForWriting target fs = .ok site opened) :
    ∃ gs, copy source target fs = .ok () gs := by
  unfold copy
  rw [reading]
  dsimp only
  rw [opening]
  exact ⟨_, rfl⟩

/-! ## Walks -/

variable {keep : Name → Bool} {here : Standing} {path : Path} {names : Place}
  {stack : List Enclosing}

theorem walkFrom_steady (unbounded : fs.Unbounded) (noZero : 0 ∉ path) (some_ : path ≠ [])
    (plain : ∀ r target, fs.at? (here.place ++ r) ≠ some (.link target)) (fault : WalkFault) :
    .error fault ∉ fs.walkFrom keep here path names stack := by
  -- Induction on what is left to walk; only a link can make a branch stumble.
  induction bound : fs.remaining stack here.place using
      Nat.strongRecOn generalizing here path names stack with
  | ind m ih =>
    subst bound
    intro met
    obtain ⟨n, present, met⟩ := (mem_walkFrom (unbounded.vet noZero some_)).1 met
    have kinds : Branches fs keep here path names stack n _ := branch_branches present
    generalize fs.branch keep here path names stack n = added at met kinds
    cases kinds with
    | @stumble target _ there _ => exact plain [n] target there
    | passed _ => simp at met
    | file _ _ _ => simp at met
    | @directory next _ followed directory less =>
        obtain ⟨e, there⟩ := Option.ne_none_iff_exists'.1 present
        obtain rfl : (⟨here.place ++ [n], here.links⟩ : Standing) = next := by
          have own :=
            follow_name_of_plain here.links there fun target same => plain [n] target (same ▸ there)
          simpa [own] using followed
        have text : 0 ∉ path.join n.bytes := Path.zero_not_mem_join noZero n.valid.2.2.2.2
        refine ih _ less text (Path.join_ne_nil path n.valid.1) (fun r target => ?_) rfl
          (by simpa using met)
        simpa using plain (n :: r) target

/-- A walk meets no obstacle in a directory below which there are no links. -/
theorem walk_steady {root : Path} (unbounded : fs.Unbounded) (arrive : fs.Arrives root p)
    (directory : fs.at? p = some .directory)
    (plain : ∀ r target, fs.at? (p ++ r) ≠ some (.link target)) (fault : WalkFault) :
    .error fault ∉ fs.walk keep root := by
  obtain ⟨links, resolved⟩ := arrive
  obtain ⟨fit, _⟩ := resolve_eq_ok_iff.1 resolved
  have some_ : root ≠ [] := fun none_ => by simp [vet, none_] at fit
  unfold walk
  rw [lookup_eq_ok_iff.2 ⟨resolved, directory⟩]
  simpa using walkFrom_steady unbounded (zero_not_mem_of_vet fit) some_ plain fault

end FileSystem
end ClassPack
