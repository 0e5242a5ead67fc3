import ClassPack.Path.Name

/-!
# Basic — the file system as a value

A file system maps places to entries. Directories are entries of their own, so an empty directory
can stand; every entry lies in a directory, and this is part of the type. Permissions, owners and
times are left out, and no two entries are one file: no call is refused for want of a permission,
and there are no hard links.

* `Content`, what a regular file holds, and `Entry`, what can stand at a place;
* `Limits`, and `Limits.fitsEntry`, which files an archive can hold;
* `FileSystem` with its view `at?`, and `FileSystem.ext_at?`: the view is all there is to the
  entries;
* the three changes that everything else is made of, `put`, `remove` and `clear`, each with a lemma
  on `at?` at every place (`at?_put`, `at?_remove`, `at?_clear`);
* `children` and `below`, what lies in a directory and below it, in the order of the names' bytes.
-/

namespace ClassPack

/-! ## Entries -/

/-- What a regular file holds: bytes as they are, or an archive, of which only the entries count. -/
inductive Content where
  | plain (bytes : Bytes)
  | archive (entries : List (String × Content))

/-- What stands at a place, without its permissions and times. -/
inductive Entry where
  | directory
  | file (content : Content)
  | link (target : Path)

/-- The greatest number of bytes that an entry of an archive takes from a file. -/
def largestEntry : Nat := 4294967295

/-- The bounds that the system sets to names, path texts and chains of links, and those of an
archive's entries. -/
structure Limits where
  /-- The greatest length of a name in bytes, if there is one. -/
  name : Option Nat := some 255
  /-- The greatest length of a path text in bytes, if there is one. -/
  path : Option Nat := some 4095
  /-- How many links may be followed on the way to an entry. -/
  links : Nat := 40
  /-- Files that grow beyond the largest entry when they are compressed. The bytes of an
  archive that is a file here are not told, so this tells of archives, too, that are as large
  as they stand. -/
  outgrows : Content → Bool := fun _ => false

/-- Whether an entry of an archive takes a file, as it stands and compressed. -/
def Limits.fitsEntry (limits : Limits) (content : Content) : Bool :=
  match content with
  | .plain bytes => bytes.length ≤ largestEntry && !limits.outgrows content
  | .archive _ => !limits.outgrows content

/-- Whether a length is above a bound. -/
def exceeds (length : Nat) : Option Nat → Bool
  | some bound => bound < length
  | none => false

/-- A file system and the directory that relative paths start from. -/
structure FileSystem where
  entries : Std.ExtTreeMap Place Entry compare
  workingDir : Place
  limits : Limits
  /-- The root is a directory. -/
  root_directory : entries[([] : Place)]? = some .directory
  /-- Whatever stands in a directory stands in one that is there. -/
  nested : ∀ (p : Place) (n : Name), entries[p ++ [n]]? ≠ none → entries[p]? = some .directory
  /-- No name is longer than names may be. -/
  bounded : ∀ (p : Place) (n : Name), entries[p ++ [n]]? ≠ none →
    exceeds n.bytes.length limits.name = false

namespace FileSystem

/-- What stands at a place. -/
def at? (fs : FileSystem) (p : Place) : Option Entry := fs.entries[p]?

@[simp] theorem at?_root (fs : FileSystem) : fs.at? [] = some .directory := fs.root_directory

theorem at?_parent (fs : FileSystem) {p : Place} {n : Name} (h : fs.at? (p ++ [n]) ≠ none) :
    fs.at? p = some .directory := fs.nested p n h

theorem name_bounded (fs : FileSystem) {p : Place} {n : Name} (h : fs.at? (p ++ [n]) ≠ none) :
    exceeds n.bytes.length fs.limits.name = false := fs.bounded p n h

/-- Two file systems with the same view, working directory and limits are one. -/
theorem ext_at? {fs gs : FileSystem} (entries : ∀ p, fs.at? p = gs.at? p)
    (workingDir : fs.workingDir = gs.workingDir) (limits : fs.limits = gs.limits) : fs = gs := by
  have same : fs.entries = gs.entries := Std.ExtTreeMap.ext_getElem? entries
  cases fs
  cases gs
  simp_all

/-- Whether a directory stands at a place. -/
def isDirectoryAt (fs : FileSystem) (p : Place) : Bool :=
  match fs.at? p with
  | some .directory => true
  | _ => false

theorem isDirectoryAt_iff {fs : FileSystem} {p : Place} :
    fs.isDirectoryAt p = true ↔ fs.at? p = some .directory := by
  unfold isDirectoryAt
  split <;> simp_all

/-- Below an entry that is no directory there is nothing. -/
theorem at?_below_eq_none {fs : FileSystem} {p : Place} (h : fs.at? p ≠ some .directory) (n : Name)
    (q : Place) : fs.at? (p ++ n :: q) = none := by
  suffices backwards : ∀ r : Place, fs.at? (p ++ n :: r.reverse) = none by
    simpa using backwards q.reverse
  intro r
  induction r with
  | nil =>
      by_cases there : fs.at? (p ++ [n]) = none
      · exact there
      · exact absurd (fs.at?_parent there) h
  | cons m r ih =>
      by_cases there : fs.at? (p ++ n :: (m :: r).reverse) = none
      · exact there
      · have above : fs.at? (p ++ n :: r.reverse) = some .directory :=
          fs.at?_parent (n := m) (by simpa using there)
        simp [ih] at above

/-! ## The empty file system -/

/-- Nothing but the root. -/
def empty (limits : Limits) : FileSystem where
  entries := Std.ExtTreeMap.empty.insert [] .directory
  workingDir := []
  limits := limits
  root_directory := by simp
  nested p n h := absurd (by simp) h
  bounded p n h := absurd (by simp) h

/-! ## Changes -/

/-- Whether an entry can be put into a directory: the directory is there, the name is not too long
and no directory has it. -/
def isFree (fs : FileSystem) (dir : Place) (n : Name) : Bool :=
  fs.isDirectoryAt dir && !fs.isDirectoryAt (dir ++ [n]) && !exceeds n.bytes.length fs.limits.name

/-- Puts an entry into a directory; where that cannot be, nothing changes. -/
def put (fs : FileSystem) (dir : Place) (n : Name) (e : Entry) : FileSystem :=
  if free : fs.isFree dir n = true then
    { fs with
      entries := fs.entries.insert (dir ++ [n]) e
      root_directory := by simpa [Std.ExtTreeMap.getElem?_insert] using fs.root_directory
      nested := by
        intro p m there
        simp only [isFree, Bool.and_eq_true, Bool.not_eq_true'] at free
        have parent : fs.entries[dir]? = some .directory := isDirectoryAt_iff.1 free.1.1
        rw [Std.ExtTreeMap.getElem?_insert] at there ⊢
        by_cases same : dir ++ [n] = p
        · -- Below the new entry: what was there before was no directory, so nothing is there.
          subst same
          have other : dir ++ [n] ≠ dir ++ [n] ++ [m] := by simp
          have blocked : fs.at? (dir ++ [n]) ≠ some .directory := by
            intro directory
            simp [isDirectoryAt_iff.2 directory] at free
          have nothing := at?_below_eq_none blocked m []
          simp only [Std.LawfulEqCmp.compare_eq_iff_eq, other, if_false] at there
          exact absurd (by simpa [at?] using nothing) there
        · simp only [Std.LawfulEqCmp.compare_eq_iff_eq, same, if_false]
          by_cases new : dir ++ [n] = p ++ [m]
          · -- The new entry itself: its directory was asked for.
            have : dir = p := (List.append_inj' new rfl).1
            exact this ▸ parent
          · -- Any other entry: it was there before.
            simp only [Std.LawfulEqCmp.compare_eq_iff_eq, new, if_false] at there
            exact fs.nested p m there
      bounded := by
        intro p m there
        simp only [isFree, Bool.and_eq_true, Bool.not_eq_true'] at free
        rw [Std.ExtTreeMap.getElem?_insert] at there
        by_cases new : dir ++ [n] = p ++ [m]
        · have : [n] = [m] := (List.append_inj' new rfl).2
          cases this
          exact free.2
        · simp only [Std.LawfulEqCmp.compare_eq_iff_eq, new, if_false] at there
          exact fs.bounded p m there }
  else fs

/-- Takes away every entry at a `gone` place, where `gone` spares the root and goes on downward. -/
def cut (fs : FileSystem) (gone : Place → Bool) (root : gone [] = false)
    (downward : ∀ p n, gone p = true → gone (p ++ [n]) = true) : FileSystem :=
  { fs with
    entries := fs.entries.filter fun q _ => !gone q
    root_directory := by
      simp [Std.ExtTreeMap.getElem?_filter, root, fs.root_directory]
    nested := by
      intro p n there
      simp only [Std.ExtTreeMap.getElem?_filter, Std.ExtTreeMap.getKey_eq,
        Option.pfilter_eq_filter] at there ⊢
      cases stays : gone p with
      | true =>
          -- The directory goes, and so does the entry.
          simp [downward p n stays] at there
      | false =>
          have : fs.entries[p ++ [n]]? ≠ none := by
            intro nothing
            simp [nothing] at there
          simp [fs.nested p n this]
    bounded := by
      intro p n there
      apply fs.bounded p n
      intro nothing
      simp [Std.ExtTreeMap.getElem?_filter, nothing] at there }

/-- Takes away what stands at a place and below it. The root stays. -/
def remove (fs : FileSystem) (p : Place) : FileSystem :=
  fs.cut (fun q => p ≠ [] && (p.below? q).isSome) (by cases p <;> simp [Place.below?]) (by
    intro q n h
    obtain ⟨inner, r, hr⟩ : p ≠ [] ∧ ∃ r, p.below? q = some r := by
      simpa [Option.isSome_iff_exists] using h
    have : q ++ [n] = p ++ (r ++ [n]) := by simp [Place.below?_eq_some_iff.1 hr]
    simp [inner, Place.below?_eq_some_iff.2 this])

/-- Takes away what lies below a place. -/
def clear (fs : FileSystem) (p : Place) : FileSystem :=
  fs.cut (fun q => q ≠ p && (p.below? q).isSome) (by cases p <;> simp [Place.below?]) (by
    intro q n h
    obtain ⟨other, r, hr⟩ : q ≠ p ∧ ∃ r, p.below? q = some r := by
      simpa [Option.isSome_iff_exists] using h
    have split : q ++ [n] = p ++ (r ++ [n]) := by simp [Place.below?_eq_some_iff.1 hr]
    have : q ++ [n] ≠ p := by simp [split]
    simp [this, Place.below?_eq_some_iff.2 split])

/-! ## The view after a change -/

theorem at?_put (fs : FileSystem) (dir : Place) (n : Name) (e : Entry) (q : Place) :
    (fs.put dir n e).at? q = if fs.isFree dir n = true ∧ q = dir ++ [n] then some e
      else fs.at? q := by
  unfold put
  split
  · rename_i free
    simp [free, at?, Std.ExtTreeMap.getElem?_insert, eq_comm (a := q)]
  · rename_i taken
    rw [if_neg fun h => taken h.1]

theorem at?_cut (fs : FileSystem) {gone : Place → Bool} (root : gone [] = false)
    (downward : ∀ p n, gone p = true → gone (p ++ [n]) = true) (q : Place) :
    (fs.cut gone root downward).at? q = if gone q then none else fs.at? q := by
  simp only [cut, at?, Std.ExtTreeMap.getElem?_filter, Std.ExtTreeMap.getKey_eq,
    Option.pfilter_eq_filter]
  cases gone q with
  | true => simp
  | false => cases fs.entries[q]? <;> simp

theorem at?_remove (fs : FileSystem) (p q : Place) :
    (fs.remove p).at? q = if p ≠ [] ∧ p <+: q then none else fs.at? q := by
  have under : (p.below? q).isSome = true ↔ p <+: q := by
    rw [Option.isSome_iff_exists]
    exact exists_congr fun r => Place.below?_eq_some_iff.trans eq_comm
  rw [remove, at?_cut]
  simp [under]

theorem at?_clear (fs : FileSystem) (p q : Place) :
    (fs.clear p).at? q = if q ≠ p ∧ p <+: q then none else fs.at? q := by
  have under : (p.below? q).isSome = true ↔ p <+: q := by
    rw [Option.isSome_iff_exists]
    exact exists_congr fun r => Place.below?_eq_some_iff.trans eq_comm
  rw [clear, at?_cut]
  simp [under]

@[simp] theorem put_workingDir (fs : FileSystem) (dir : Place) (n : Name) (e : Entry) :
    (fs.put dir n e).workingDir = fs.workingDir := by
  unfold put
  split <;> rfl

@[simp] theorem put_limits (fs : FileSystem) (dir : Place) (n : Name) (e : Entry) :
    (fs.put dir n e).limits = fs.limits := by
  unfold put
  split <;> rfl

@[simp] theorem remove_workingDir (fs : FileSystem) (p : Place) :
    (fs.remove p).workingDir = fs.workingDir := rfl

@[simp] theorem remove_limits (fs : FileSystem) (p : Place) : (fs.remove p).limits = fs.limits :=
  rfl

@[simp] theorem clear_workingDir (fs : FileSystem) (p : Place) :
    (fs.clear p).workingDir = fs.workingDir := rfl

@[simp] theorem clear_limits (fs : FileSystem) (p : Place) : (fs.clear p).limits = fs.limits := rfl

/-! ## What lies in a directory and below it -/

/-- What lies below a place, as seen from there, in component-wise order of the names' bytes: every
directory stands directly before what it holds. -/
def below (fs : FileSystem) (p : Place) : List (Place × Entry) :=
  fs.entries.toList.filterMap fun (q, e) =>
    match p.below? q with
    | some (n :: r) => some (n :: r, e)
    | _ => none

/-- The entries of a directory in the order of their names' bytes. -/
def children (fs : FileSystem) (p : Place) : List (Name × Entry) :=
  fs.entries.toList.filterMap fun (q, e) =>
    match p.below? q with
    | some [n] => some (n, e)
    | _ => none

theorem mem_below {fs : FileSystem} {p r : Place} {e : Entry} :
    (r, e) ∈ fs.below p ↔ r ≠ [] ∧ fs.at? (p ++ r) = some e := by
  simp only [below, List.mem_filterMap, Prod.exists, Std.ExtTreeMap.mem_toList_iff_getElem?_eq_some]
  constructor
  · rintro ⟨q, f, there, h⟩
    split at h
    · rename_i n s hs
      obtain ⟨rfl, rfl⟩ := Prod.mk.inj (Option.some.inj h)
      exact ⟨by simp, by simpa [at?, Place.below?_eq_some_iff.1 hs] using there⟩
    · exact absurd h (by simp)
  · rintro ⟨inner, there⟩
    obtain ⟨n, s, rfl⟩ := List.exists_cons_of_ne_nil inner
    exact ⟨p ++ n :: s, e, there, by simp [Place.below?_self_append]⟩

theorem mem_children {fs : FileSystem} {p : Place} {n : Name} {e : Entry} :
    (n, e) ∈ fs.children p ↔ fs.at? (p ++ [n]) = some e := by
  simp only [children, List.mem_filterMap, Prod.exists,
    Std.ExtTreeMap.mem_toList_iff_getElem?_eq_some]
  constructor
  · rintro ⟨q, f, there, h⟩
    split at h
    · rename_i m hm
      obtain ⟨rfl, rfl⟩ := Prod.mk.inj (Option.some.inj h)
      simpa [at?, Place.below?_eq_some_iff.1 hm] using there
    · exact absurd h (by simp)
  · intro there
    exact ⟨p ++ [n], e, there, by simp [Place.below?_self_append]⟩

/-- The places below a directory come in strictly increasing order. -/
theorem below_sorted (fs : FileSystem) (p : Place) :
    (fs.below p).Pairwise fun a b => compare a.1 b.1 = .lt := by
  unfold below
  rw [List.pairwise_filterMap]
  refine fs.entries.ordered_keys_toList.imp ?_
  rintro ⟨q, e⟩ ⟨q', e'⟩ before x hx y hy
  dsimp only at hx hy before
  split at hx
  · rename_i n r hr
    split at hy
    · rename_i m t ht
      cases hx
      cases hy
      -- Both places start with `p`, so what comes after it decides.
      rw [Place.below?_eq_some_iff.1 hr, Place.below?_eq_some_iff.1 ht] at before
      exact (Place.compare_append_left p _ _).symm.trans before
    · exact absurd hy (by simp)
  · exact absurd hx (by simp)

/-- The names in a directory come in strictly increasing order. -/
theorem children_sorted (fs : FileSystem) (p : Place) :
    (fs.children p).Pairwise fun a b => compare a.1 b.1 = .lt := by
  unfold children
  rw [List.pairwise_filterMap]
  refine fs.entries.ordered_keys_toList.imp ?_
  rintro ⟨q, e⟩ ⟨q', e'⟩ before x hx y hy
  dsimp only at hx hy before
  split at hx
  · rename_i n hn
    split at hy
    · rename_i m hm
      cases hx
      cases hy
      rw [Place.below?_eq_some_iff.1 hn, Place.below?_eq_some_iff.1 hm] at before
      have single : compare [n] [m] = .lt := (Place.compare_append_left p _ _).symm.trans before
      -- One name each: the lists compare as their names do.
      simpa [List.compare_cons_cons] using single
    · exact absurd hy (by simp)
  · exact absurd hx (by simp)

end FileSystem
end ClassPack
