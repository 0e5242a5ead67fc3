import ClassPack.Proofs.FileSystem.Growth

/-!
# Visiting — the places that a reading looks at

* `FileSystem.Visits fs p steps q` — to read steps from `p` on, one looks at `q`, among others; this
  depends on the links alone (`Visits.congr`);
* `follow_of_visits`, `Arrives.of_looks` — where all of those places are the same, the reading is;
  so are `lookup`, `isDir` and `canonical?`.
-/

namespace ClassPack
namespace FileSystem

variable {fs gs : FileSystem} {p q : Place} {s : List Segment} {text : Path}

/-- To read steps from a place on, one looks at that place, at every entry named, and at whatever
comes after it. -/
inductive Visits (fs : FileSystem) : Place → List Segment → Place → Prop where
  | start (p : Place) (steps : List Segment) : Visits fs p steps p
  | entry (p : Place) (n : Name) (rest : List Segment) : Visits fs p (.name n :: rest) (p ++ [n])
  | here {p q : Place} {rest : List Segment} : Visits fs p rest q → Visits fs p (.here :: rest) q
  | up {p q : Place} {rest : List Segment} : Visits fs p.parent rest q → Visits fs p (.up :: rest) q
  | name {p q : Place} {n : Name} {rest : List Segment} :
      (∀ target, fs.at? (p ++ [n]) ≠ some (.link target)) → Visits fs (p ++ [n]) rest q →
        Visits fs p (.name n :: rest) q
  | link {p q : Place} {n : Name} {target : Path} {rest : List Segment} :
      fs.at? (p ++ [n]) = some (.link target) →
        Visits fs (target.origin p) (target.steps ++ rest) q → Visits fs p (.name n :: rest) q

namespace Visits

theorem of_leads (h : fs.Leads p s q) : fs.Visits p s q := by
  induction h with
  | done p => exact .start p []
  | here _ ih => exact .here ih
  | up _ ih => exact .up ih
  | name plain _ ih => exact .name plain ih
  | link there _ ih => exact .link there ih

/-- Two file systems with the same links agree on what is looked at. -/
theorem congr (links : ∀ q target, fs.at? q = some (.link target) ↔ gs.at? q = some (.link target))
    (h : fs.Visits p s q) : gs.Visits p s q := by
  induction h with
  | start p steps => exact .start p steps
  | entry p n rest => exact .entry p n rest
  | here _ ih => exact .here ih
  | up _ ih => exact .up ih
  | name plain _ ih => exact .name (fun target there => plain target ((links _ _).2 there)) ih
  | link there _ ih => exact .link ((links _ _).1 there) ih

/-- A file system that is the same wherever one looks in another is looked at in the same places. -/
theorem of_same (same : ∀ q, fs.Visits p s q → gs.at? q = fs.at? q) (h : gs.Visits p s q) :
    fs.Visits p s q := by
  induction h with
  | start p steps => exact .start p steps
  | entry p n rest => exact .entry p n rest
  | here _ ih => exact .here (ih fun q seen => same q (.here seen))
  | up _ ih => exact .up (ih fun q seen => same q (.up seen))
  | name plain _ ih =>
      have plain := fun target there => plain target ((same _ (.entry ..)).trans there)
      exact .name plain (ih fun q seen => same q (.name plain seen))
  | link there _ ih =>
      have there := (same _ (.entry ..)).symm.trans there
      exact .link there (ih fun q seen => same q (.link there seen))

theorem of_scan_link {dir : Place} {target : Path} {rest : List Segment}
    (h : fs.scan p s = .ok (.link dir target rest))
    (onward : fs.Visits (target.origin dir) (target.steps ++ rest) q) :
    fs.Visits p s q := by
  fun_induction scan fs p s with
  | case3 p rest _ ih => exact .here (ih h)
  | case5 p rest _ ih => exact .up (ih h)
  | case9 p n rest _ _ target there =>
      cases h
      exact .link there onward
  | case10 p n rest _ _ e notLink there ih =>
      exact .name (fun target link => notLink target (Option.some.inj (there.symm.trans link)))
        (ih h)
  | _ => simp_all

end Visits

/-! ## Readings that look at the same -/

theorem scan_of_visits (limits : gs.limits = fs.limits)
    (same : ∀ q, fs.Visits p s q → gs.at? q = fs.at? q) : gs.scan p s = fs.scan p s := by
  have enter : ∀ {p}, gs.at? p = fs.at? p → gs.enterable p = fs.enterable p := fun at_ => by
    simp [enterable, at_]
  have read : ∀ {p}, gs.at? p = fs.at? p → gs.readable p = fs.readable p := fun at_ => by
    simp [readable, at_]
  fun_induction scan fs p s with
  | case1 p => rfl
  | case2 p rest e refused => simp [scan, read (same p (.start ..)), refused]
  | case3 p rest open_ ih =>
      simpa [scan, read (same p (.start ..)), open_] using ih fun q h => same q (.here h)
  | case4 p rest e refused => simp [scan, read (same p (.start ..)), refused]
  | case5 p rest open_ ih =>
      simpa [scan, read (same p (.start ..)), open_] using ih fun q h => same q (.up h)
  | case6 p n rest e refused => simp [scan, enter (same p (.start ..)), refused]
  | case7 p n rest entered long => simp [scan, enter (same p (.start ..)), entered, limits, long]
  | case8 p n rest entered short missing =>
      simp [scan, enter (same p (.start ..)), entered, limits, short,
        same _ (.entry p n rest), missing]
  | case9 p n rest entered short target there =>
      simp [scan, enter (same p (.start ..)), entered, limits, short,
        same _ (.entry p n rest), there]
  | case10 p n rest entered short e notLink there ih =>
      have plain : ∀ target, fs.at? (p ++ [n]) ≠ some (.link target) := fun target link =>
        notLink target (Option.some.inj (there.symm.trans link))
      have onward := ih fun q h => same q (.name plain h)
      cases e with
      | link target => exact absurd rfl (notLink target)
      | directory =>
          simpa [scan, enter (same p (.start ..)), entered, limits, short,
            same _ (.entry p n rest), there] using onward
      | file content =>
          simpa [scan, enter (same p (.start ..)), entered, limits, short,
            same _ (.entry p n rest), there] using onward

/-- Where all that is looked at is the same, so is the reading. -/
theorem follow_of_visits {links : Nat} (limits : gs.limits = fs.limits)
    (same : ∀ q, fs.Visits p s q → gs.at? q = fs.at? q) :
    gs.follow links p s = fs.follow links p s := by
  -- What is looked at behind a link is looked at by the whole reading.
  have scanned := scan_of_visits limits same
  fun_induction follow fs links p s with
  | case1 links p s e refused =>
      rw [follow, scanned, refused]
  | case2 links p s q arrived =>
      rw [follow, scanned, arrived]
  | case3 p s dir target rest stretch =>
      rw [follow, scanned, stretch]
  | case4 p s dir target rest stretch left ih =>
      have onward : ∀ q, fs.Visits (target.origin dir) (target.steps ++ rest) q →
          gs.at? q = fs.at? q :=
        fun q h => same q (.of_scan_link stretch h)
      rw [follow, scanned, stretch]
      exact ih onward (scan_of_visits limits onward)

/-- The places looked at when a whole text is read. -/
def Looks (fs : FileSystem) (text : Path) (q : Place) : Prop :=
  fs.Visits (text.origin fs.workingDir) text.steps q

theorem LeadsTo.looks (h : fs.LeadsTo text q) : fs.Looks text q :=
  .of_leads ((leads_steps_iff text).2 h)

theorem Grows.looks_iff (h : fs.Grows gs) : gs.Looks text q ↔ fs.Looks text q := by
  unfold Looks
  rw [h.workingDir]
  exact ⟨.congr fun q target => (h.link_iff q target).symm, .congr h.link_iff⟩

theorem Arrives.of_looks (workingDir : gs.workingDir = fs.workingDir)
    (limits : gs.limits = fs.limits) (same : ∀ q, fs.Looks text q → gs.at? q = fs.at? q)
    (arrive : fs.Arrives text p) : gs.Arrives text p := by
  obtain ⟨links, way⟩ := arrive
  obtain ⟨fit, way⟩ := resolve_eq_ok_iff.1 way
  refine ⟨links, resolve_eq_ok_iff.2 ⟨by simpa [vet, limits] using fit, ?_⟩⟩
  rw [limits, workingDir, follow_of_visits limits same]
  exact way

theorem resolve_of_looks (workingDir : gs.workingDir = fs.workingDir)
    (limits : gs.limits = fs.limits) (same : ∀ q, fs.Looks text q → gs.at? q = fs.at? q) :
    gs.resolve text = fs.resolve text := by
  unfold resolve vet
  rw [limits, workingDir, follow_of_visits limits same]

theorem lookup_of_looks (workingDir : gs.workingDir = fs.workingDir)
    (limits : gs.limits = fs.limits) (same : ∀ q, fs.Looks text q → gs.at? q = fs.at? q) :
    gs.lookup text = fs.lookup text := by
  unfold lookup
  rw [resolve_of_looks workingDir limits same]
  cases way : fs.resolve text with
  | error e => rfl
  | ok standing =>
      have here := same standing.place (LeadsTo.of_resolve way).looks
      simp only [bind, Except.bind, here]

theorem isDir_of_looks (workingDir : gs.workingDir = fs.workingDir) (limits : gs.limits = fs.limits)
    (same : ∀ q, fs.Looks text q → gs.at? q = fs.at? q) : gs.isDir text = fs.isDir text := by
  unfold isDir
  rw [lookup_of_looks workingDir limits same]

theorem canonical?_of_looks {text : String} (workingDir : gs.workingDir = fs.workingDir)
    (limits : gs.limits = fs.limits)
    (same : ∀ q, fs.Looks (Utf8.encode text) q → gs.at? q = fs.at? q) :
    gs.canonical? text = fs.canonical? text := by
  unfold canonical?
  simp only [limits, workingDir, follow_of_visits limits same]
  cases way : fs.follow fs.limits.links (Path.origin (Utf8.encode text) fs.workingDir)
      (Path.steps (Utf8.encode text)) with
  | error e => rfl
  | ok standing =>
      have leads : fs.LeadsTo (Utf8.encode text) standing.place :=
        (leads_steps_iff _).1 (Leads.of_follow way)
      simp only [same standing.place leads.looks]

end FileSystem
end ClassPack
