import ClassPack.Proofs.FileSystem.Removing
import ClassPack.Proofs.FileSystem.Visiting

/-!
# Planting — file systems written down entry by entry

* `FileSystem.plant` — a file system with one more entry, named by a text;
* `FileSystem.tree` and `FileSystem.holds`, what is looked up in them;
* `FileSystem.links` — where the links are. If there are none, an absolute text leads where it
  spells (`Path.spelled`) and nowhere else: `place_of_leadsTo`, `place_of_names`, `prefix_of_looks`.
-/

namespace ClassPack

/-- The place that a step takes to, if it meets no link. -/
def Segment.take (p : Place) : Segment → Place
  | .here => p
  | .up => p.parent
  | .name n => p ++ [n]

/-- The place that an absolute text spells. -/
def Path.spelled (text : Path) : Place := text.segments.foldl Segment.take []

namespace FileSystem

variable {fs : FileSystem} {q : Place} {text : Path}

/-! ## Planting -/

/-- The file system with one more entry, in a directory that is there; anything else changes
nothing. -/
def plant (fs : FileSystem) (text : String) (e : Entry) : FileSystem :=
  let place := Path.spelled (Utf8.encode text)
  match place.getLast? with
  | none => fs
  | some n => fs.put place.dropLast n e

theorem at?_plant_of_ne {text : String} (other : q ≠ Path.spelled (Utf8.encode text))
    (fs : FileSystem) (e : Entry) : (fs.plant text e).at? q = fs.at? q := by
  unfold plant
  simp only
  split
  · rfl
  · rename_i n last
    rw [at?_put, if_neg]
    rintro ⟨_, rfl⟩
    exact other (List.dropLast_append_getLast? n last)

@[simp] theorem plant_limits (fs : FileSystem) (text : String) (e : Entry) :
    (fs.plant text e).limits = fs.limits := by
  unfold plant
  simp only
  split <;> simp

/-- A file that holds a text. -/
def holding (text : String) : Entry := .file (.plain (Utf8.encode text))

/-- A link with a text as its target. -/
def linkTo (text : String) : Entry := .link (Utf8.encode text)

/-- What lies below the directory that a text leads to: the way there, and whether it is a
directory. -/
def tree (fs : FileSystem) (text : String) : List (Path × Bool) :=
  match fs.lookup (Utf8.encode text) with
  | .ok (standing, .directory) =>
      (fs.below standing.place).map fun (r, _) =>
        (r.relativePath, fs.isDirectoryAt (standing.place ++ r))
  | _ => []

/-- Whether a file stands at a place. -/
def isFileAt (fs : FileSystem) (p : Place) : Bool :=
  match fs.at? p with
  | some (.file _) => true
  | _ => false

theorem isFileAt_iff : fs.isFileAt q = true ↔ ∃ content, fs.at? q = some (.file content) := by
  unfold isFileAt
  split <;> simp_all

/-- Whether a text leads to a file that holds a text. -/
def holds (fs : FileSystem) (text content : String) : Bool :=
  match fs.read? (Utf8.encode text) with
  | some (.plain bytes) => bytes = Utf8.encode content
  | _ => false

/-! ## Links -/

/-- The places of all links. -/
def links (fs : FileSystem) : List Place :=
  fs.entries.toList.filterMap fun (q, e) =>
    match e with
    | .link _ => some q
    | _ => none

theorem mem_links {target : Path} (there : fs.at? q = some (.link target)) : q ∈ fs.links :=
  List.mem_filterMap.2 ⟨(q, .link target), Std.ExtTreeMap.mem_toList_iff_getElem?_eq_some.2 there,
    rfl⟩

theorem exists_link_of_mem_links (h : q ∈ fs.links) : ∃ target, fs.at? q = some (.link target) := by
  obtain ⟨⟨p, e⟩, there, link⟩ := List.mem_filterMap.1 h
  cases e <;> cases link
  exact ⟨_, Std.ExtTreeMap.mem_toList_iff_getElem?_eq_some.1 there⟩

theorem plain_of_links (h : fs.links = []) (q : Place) (target : Path) :
    fs.at? q ≠ some (.link target) :=
  fun there => by simpa [h] using mem_links there

theorem place_of_leads {p : Place} {steps : List Segment} (h : fs.links = [])
    (leads : fs.Leads p steps q) : q = steps.foldl Segment.take p := by
  induction leads with
  | done p => rfl
  | here _ ih => exact ih
  | up _ ih => exact ih
  | name _ _ ih => exact ih
  | link there _ _ => exact absurd there (plain_of_links h _ _)

/-- An absolute text leads where it spells. -/
theorem place_of_leadsTo (h : fs.links = []) (absolute : text.isAbsolute = true)
    (leads : fs.LeadsTo text q) : q = text.spelled := by
  unfold LeadsTo at leads
  rw [Path.origin, if_pos absolute] at leads
  exact place_of_leads h leads

/-- An absolute text names what it spells. -/
theorem place_of_names (h : fs.links = []) (absolute : text.isAbsolute = true)
    (names : fs.Names text q) : q = text.spelled := by
  cases names with
  | through _ leads => exact place_of_leadsTo h absolute leads
  | entry steps _ front =>
      rw [Path.origin, if_pos absolute] at front
      rw [Path.spelled, steps, List.foldl_append, ← place_of_leads h front]
      rfl

theorem prefix_take {steps : List Segment} (p : Place) (noUp : Segment.up ∉ steps) :
    p <+: steps.foldl Segment.take p := by
  induction steps generalizing p with
  | nil => exact List.prefix_refl _
  | cons step rest ih =>
      have later : Segment.up ∉ rest := fun there => noUp (List.mem_cons_of_mem _ there)
      cases step with
      | here => exact ih p later
      | up => exact absurd (List.mem_cons_self ..) noUp
      | name n => exact (List.prefix_append ..).trans (ih (p ++ [n]) later)

/-- An absolute text without steps up goes by the places above the one it spells. -/
theorem prefix_of_onWay_of_links (h : fs.links = []) (absolute : text.isAbsolute = true)
    (noUp : Segment.up ∉ text.segments) (onWay : fs.OnWay text q) : q <+: text.spelled := by
  obtain ⟨before, n, rest, steps, way⟩ := onWay
  rw [Path.origin, if_pos absolute] at way
  have whole : text.segments = (before ++ [.name n]) ++ rest := by simp [steps]
  rw [Path.spelled, whole, List.foldl_append, ← place_of_leads h way]
  exact prefix_take q fun there => noUp (by simp [whole, there])

theorem prefix_of_visits {p : Place} {steps : List Segment} (h : fs.links = [])
    (noUp : Segment.up ∉ steps) (visits : fs.Visits p steps q) :
    q <+: steps.foldl Segment.take p := by
  induction visits with
  | start p steps => exact prefix_take p noUp
  | entry p n rest => exact prefix_take (p ++ [n]) fun there => noUp (List.mem_cons_of_mem _ there)
  | here _ ih => exact ih fun there => noUp (List.mem_cons_of_mem _ there)
  | up _ _ => exact absurd (List.mem_cons_self ..) noUp
  | name _ _ ih => exact ih fun there => noUp (List.mem_cons_of_mem _ there)
  | link there _ _ => exact absurd there (plain_of_links h _ _)

/-- To read an absolute text without steps up one looks only at the directories above the
place it spells. -/
theorem prefix_of_looks (h : fs.links = []) (absolute : text.isAbsolute = true)
    (noUp : Segment.up ∉ text.steps)
    (looks : fs.Looks text q) : q <+: text.steps.foldl Segment.take [] := by
  unfold Looks at looks
  rw [Path.origin, if_pos absolute] at looks
  exact prefix_of_visits h noUp looks

end FileSystem
end ClassPack
