import ClassPack.FileSystem.Resolve

/-!
# Walk — all that lies under a path, links followed

The walk visits a directory before what it holds, and the entries of one directory in the order of
their names' bytes. A link is followed, and what it leads to stands under the link's own name.

* `FileSystem.walk` with its parts `WalkFault` and `Found`. A filter on names says what is visited;
  the links among the entries of a visited directory are followed before the filter is asked.
* The walk ends on every structure of links: it enters a directory through a link only if it is not
  inside that directory already, and the directories it is not inside are finitely many
  (`remaining_lt_of_link`, `remaining_lt_of_child`).
-/

namespace ClassPack

/-- Why a walk stumbles. -/
inductive WalkFault where
  /-- The system refused to look at a path. -/
  | io (path : Path) (fault : IoFault)
  /-- A link leads back to a directory that the walk is inside of. -/
  | loop (path ancestor : Path)
  deriving DecidableEq

namespace WalkFault

/-- The words for a stumble. -/
def message : WalkFault → String
  | .io path fault => s!"IO error for operation on {Utf8.lossy path}: {fault.message}"
  | .loop path ancestor =>
      s!"File system loop found: {Utf8.lossy path} points to an ancestor {Utf8.lossy ancestor}"

end WalkFault

/-- A visited entry: its names below the root of the walk, the text it is reached by, and whether it
is a regular file rather than a directory. -/
structure Found where
  names : Place
  path : Path
  isFile : Bool
  deriving DecidableEq

/-- A directory that a walk is inside of, and the text it was reached by. -/
structure Enclosing where
  place : Place
  path : Path
  deriving DecidableEq

/-- A count grows strictly when one more member is counted. -/
theorem countP_lt_of_mem {α : Type} {p q : α → Bool} {l : List α} {a : α}
    (weaker : ∀ x, p x = true → q x = true) (there : a ∈ l) (counted : q a = true)
    (uncounted : p a = false) : l.countP p < l.countP q := by
  induction l with
  | nil => simp at there
  | cons b l ih =>
      have rest : l.countP p ≤ l.countP q := List.countP_mono_left fun x _ => weaker x
      rcases List.mem_cons.1 there with rfl | later
      · rw [List.countP_cons_of_pos counted, List.countP_cons_of_neg (by simp [uncounted])]
        omega
      · have smaller := ih later
        rw [List.countP_cons, List.countP_cons]
        -- The first member is counted by neither, by the weaker one alone, or by both.
        split <;> rename_i one
        · rw [if_pos (weaker b one)]
          omega
        · split <;> omega

namespace FileSystem

/-! ## What is left to enter -/

/-- How many directories a walk is not inside of. -/
def outside (fs : FileSystem) (stack : List Enclosing) : Nat :=
  fs.entries.keys.countP fun p => fs.isDirectoryAt p && !(stack.map Enclosing.place).contains p

/-- The length of the longest way down from the root that takes no link. -/
def depth (fs : FileSystem) : Nat := (fs.entries.keys.map List.length).foldr max 0

theorem mem_keys {fs : FileSystem} {p : Place} : p ∈ fs.entries.keys ↔ fs.at? p ≠ none := by
  rw [Std.ExtTreeMap.mem_keys, ← Std.ExtTreeMap.isSome_getElem?_iff_mem, Option.isSome_iff_ne_none]
  rfl

theorem length_le_depth {fs : FileSystem} {p : Place} (h : fs.at? p ≠ none) :
    p.length ≤ fs.depth := by
  have key := mem_keys.2 h
  unfold depth
  generalize fs.entries.keys = keys at key
  induction keys with
  | nil => simp at key
  | cons q keys ih =>
      rcases List.mem_cons.1 key with rfl | later
      · exact Nat.le_max_left _ _
      · exact Nat.le_trans (ih later) (Nat.le_max_right _ _)

theorem outside_cons_le (fs : FileSystem) (here : Enclosing) (stack : List Enclosing) :
    fs.outside (here :: stack) ≤ fs.outside stack := by
  apply List.countP_mono_left
  intro p _ h
  simp_all

/-- To enter a directory that the walk is not inside of leaves fewer of them. -/
theorem outside_cons_lt {fs : FileSystem} {here : Enclosing} {stack : List Enclosing}
    (directory : fs.at? here.place = some .directory) (new : ∀ e ∈ stack, e.place ≠ here.place) :
    fs.outside (here :: stack) < fs.outside stack := by
  apply countP_lt_of_mem (a := here.place)
  · intro p h
    simp_all
  · exact mem_keys.2 (by simp [directory])
  · simpa [isDirectoryAt_iff.2 directory] using fun e he => new e he
  · simp

/-- What bounds the rest of a walk: the directories it is not inside of, and within them how far
down the tree reaches below the present one. -/
def remaining (fs : FileSystem) (stack : List Enclosing) (p : Place) : Nat :=
  fs.outside stack * (fs.depth + 2) + (fs.depth + 1 - p.length)

theorem remaining_lt_of_child {fs : FileSystem} {stack : List Enclosing} {p : Place} {n : Name}
    {path : Path} (there : fs.at? (p ++ [n]) = some .directory) :
    fs.remaining (⟨p ++ [n], path⟩ :: stack) (p ++ [n]) < fs.remaining stack p := by
  have deep : (p ++ [n]).length ≤ fs.depth := length_le_depth (by simp [there])
  have fewer := Nat.mul_le_mul_right (fs.depth + 2) (fs.outside_cons_le ⟨p ++ [n], path⟩ stack)
  simp only [List.length_append, List.length_singleton] at deep
  simp only [remaining, List.length_append, List.length_singleton]
  omega

theorem remaining_lt_of_link {fs : FileSystem} (here : Enclosing) {stack : List Enclosing}
    {p : Place} (directory : fs.at? here.place = some .directory)
    (new : ∀ e ∈ stack, e.place ≠ here.place) :
    fs.remaining (here :: stack) here.place < fs.remaining stack p := by
  have fewer : fs.outside (here :: stack) + 1 ≤ fs.outside stack := outside_cons_lt directory new
  have product := Nat.mul_le_mul_right (fs.depth + 2) fewer
  rw [Nat.add_mul] at product
  simp only [remaining]
  omega

/-! ## The walk -/

/-- Where the entry `n` of a directory leads that was reached with `here.links` links left. -/
def step (fs : FileSystem) (here : Standing) (n : Name) (path : Path) :
    Except IoFault Standing := do
  fs.vet path
  refused (fs.follow here.links here.place [.name n])

/-- What lies in the directory where the walk stands and below it; `stack` holds the directories
that the walk is inside of, this one included, nearest first. -/
def walkFrom (fs : FileSystem) (keep : Name → Bool) (here : Standing) (path : Path) (names : Place)
    (stack : List Enclosing) : List (Except WalkFault Found) :=
  match fs.vet path with
  | .error e => [.error (.io path e)]
  | .ok () =>
      (fs.children here.place).flatMap fun (n, _) =>
        let path' := path.join n.bytes
        let names' := names ++ [n]
        match _ : fs.at? (here.place ++ [n]) with
        | none => []
        | some (.file _) => if keep n then [.ok ⟨names', path', true⟩] else []
        | some .directory =>
            if keep n then
              .ok ⟨names', path', false⟩ ::
                walkFrom fs keep ⟨here.place ++ [n], here.links⟩ path' names'
                  (⟨here.place ++ [n], path'⟩ :: stack)
            else []
        | some (.link _) =>
            -- The link is followed before the filter is asked: a broken one stops the walk
            -- even if hidden.
            match fs.step here n path' with
            | .error e => [.error (.io path' e)]
            | .ok next =>
                match _ : fs.at? next.place with
                | some .directory =>
                    match _ : stack.find? (fun e => e.place = next.place) with
                    | some ancestor => [.error (.loop path' ancestor.path)]
                    | none =>
                        if keep n then
                          .ok ⟨names', path', false⟩ ::
                            walkFrom fs keep next path' names' (⟨next.place, path'⟩ :: stack)
                        else []
                | some (.file _) => if keep n then [.ok ⟨names', path', true⟩] else []
                | _ => [.error (.io path' (.os .noEntry))]
termination_by fs.remaining stack here.place
decreasing_by
  · -- One level down, by an entry that is a directory itself.
    exact remaining_lt_of_child (by assumption)
  · -- Anywhere, by a link to a directory that the walk is not inside of.
    rename_i outsider _
    exact remaining_lt_of_link ⟨next.place, path'⟩ (by assumption)
      (by simpa using List.find?_eq_none.1 outsider)

/-- All that a walk meets from a root on, itself included; the filter is not asked about the
root. -/
def walk (fs : FileSystem) (keep : Name → Bool) (root : Path) : List (Except WalkFault Found) :=
  match fs.lookup root with
  | .error e => [.error (.io root e)]
  | .ok (here, .directory) =>
      .ok ⟨[], root, false⟩ :: fs.walkFrom keep here root [] [⟨here.place, root⟩]
  | .ok _ => [.ok ⟨[], root, true⟩]

end FileSystem
end ClassPack
