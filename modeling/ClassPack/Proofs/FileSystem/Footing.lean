import ClassPack.Proofs.FileSystem.Making

/-!
# Footing — texts that step up only from what is there

A relative text is read from the working directory, which may have been taken away. What can still
be made under such a text depends on its steps up:

* `Firm fs text` — a text steps up only from places that are there. With a place to start from that
  is all that `Steady` asks for (`Firm.steady`);
* `createDirs_of_not_starts` — without one nothing can be made under a firm text.
-/

namespace ClassPack
namespace FileSystem

variable {fs : FileSystem} {p : Place} {text upper : Path} {s : List Segment} {links : Nat}

/-- A text that steps up only from places that are there. -/
def Firm (fs : FileSystem) (text : Path) : Prop :=
  ∀ before rest, text.segments = before ++ .up :: rest →
    ∃ m, fs.follow fs.limits.links (text.origin fs.workingDir) before = .ok m ∧
    fs.at? m.place ≠ none

theorem Firm.steady (firm : fs.Firm text) (starts : fs.Starts text) : fs.Steady text where
  starts := starts
  up before rest steps := (firm before rest steps).imp fun _ => And.left

theorem Firm.of_noUp (noUp : Segment.up ∉ text.segments) : fs.Firm text := fun _ _ steps =>
  absurd (by simp [steps]) noUp

theorem Firm.joinText {root path : String} (firm : fs.Firm (Utf8.encode root))
    (descends : Path.Descends (Utf8.encode path)) : fs.Firm (Utf8.encode (joinText root path)) := by
  intro before rest steps
  rw [encode_joinText, Path.segments_join descends.relative] at steps
  rw [encode_joinText, Path.origin_join descends.relative]
  -- The step up is one of the first part, as the second has none.
  rcases List.append_eq_append_iff.1 steps with ⟨between, front, back⟩ | ⟨between, front, back⟩
  · exact absurd (by simp [back]) descends.noUp
  · cases between with
    | nil =>
        have back : Path.segments (Utf8.encode path) = .up :: rest := by simpa using back.symm
        exact absurd (by simp [back]) descends.noUp
    | cons step between =>
        obtain ⟨rfl, rfl⟩ := List.cons.inj back
        exact firm before between front

/-- Whoever arrives where something stands, and has not stepped up from nothing, has started
from something. -/
theorem start_of_follow {m : Standing} (h : fs.follow links p s = .ok m)
    (there : fs.at? m.place ≠ none) (firm : ∀ before rest, s = before ++ .up :: rest →
      ∃ m, fs.follow links p before = .ok m ∧ fs.at? m.place ≠ none) : fs.at? p ≠ none := by
  induction s with
  | nil =>
      rw [follow_nil] at h
      cases h
      exact there
  | cons step rest ih =>
      cases step with
      | here =>
          refine ih (follow_here_ok h).2 fun before later steps => ?_
          obtain ⟨m', way, stands⟩ := firm (.here :: before) later (by simp [steps])
          exact ⟨m', (follow_here_ok way).2, stands⟩
      | up =>
          obtain ⟨m', way, stands⟩ := firm [] rest rfl
          rw [follow_nil] at way
          cases way
          exact stands
      | name n => simp [at?_of_enterable (follow_name_ok h).1]

theorem Firm.starts_of_isDir (firm : fs.Firm text) (h : fs.isDir text = true) : fs.Starts text := by
  obtain ⟨p, ⟨links, arrive⟩, there⟩ := isDir_iff.1 h
  obtain ⟨m, front, stay⟩ := follow_prefix (resolve_eq_ok_iff.1 arrive).2
  have here : m.place = p := by
    have := follow_slash_ok stay
    cases this
    rfl
  exact start_of_follow front (by simp [here, there]) firm

theorem Firm.starts_of_makeDir {gs : FileSystem} (firm : fs.Firm text)
    (steps : upper.segments <+: text.segments) (origin : upper.isAbsolute = text.isAbsolute)
    (h : fs.makeDir upper = .ok gs) : fs.Starts text := by
  obtain ⟨dir, n, _, found, _⟩ := makeDir_ok h
  obtain ⟨before, left, split, way, above, _, _⟩ := locate_entry found
  obtain ⟨more, whole⟩ := steps
  have start : upper.origin fs.workingDir = text.origin fs.workingDir := by
    simp [Path.origin, origin]
  rw [start] at way
  refine start_of_follow way (by simp [above]) fun front rest first => ?_
  -- A step up on the way to the directory above is one of the text.
  exact firm front (rest ++ .name n :: more) (by simp [← whole, split, first])

/-- As long as none of several directories can be made, nothing changes, and a call goes well only
if its directory is there already. -/
theorem createChain_stuck {chain : List Path}
    (stuck : ∀ upper ∈ chain, ∀ gs, fs.makeDir upper ≠ .ok gs) :
    leftBy (createChain chain fs) = fs ∧
      ∀ upper gs, chain.head? = some upper → createChain chain fs = .ok () gs →
        fs.isDir upper = true := by
  induction chain with
  | nil => exact ⟨rfl, by simp⟩
  | cons upper more ih =>
      have own := stuck upper (List.mem_cons_self ..)
      have others := (ih fun u there => stuck u (List.mem_cons_of_mem _ there)).1
      unfold createChain
      split
      · rename_i made h
        exact absurd h (own made)
      · split
        · rename_i e partly h
          exact ⟨by simpa [h] using others, by simp⟩
        · rename_i partly h
          obtain rfl : partly = fs := by simpa [h] using others
          split
          · rename_i made h'
            exact absurd h' (own made)
          · split <;> simp_all
      · split <;> simp_all

/-- Without a place to start from nothing is made under a firm text. -/
theorem createDirs_of_not_starts (some_ : text ≠ []) (firm : fs.Firm text)
    (lost : ¬ fs.Starts text) : ∃ e, createDirs text fs = .error e fs := by
  have stuck : ∀ upper ∈ text.ancestors, ∀ gs, fs.makeDir upper ≠
      .ok gs := fun upper there gs made => by
    obtain ⟨steps, origin⟩ := Path.segments_of_mem_ancestors there
    exact lost (firm.starts_of_makeDir steps origin made)
  obtain ⟨same, goesWell⟩ := createChain_stuck stuck
  unfold createDirs
  cases h : createChain text.ancestors fs with
  | error e gs =>
      rw [h, leftBy_error] at same
      exact ⟨e, by rw [same]⟩
  | ok _ gs =>
      obtain ⟨above, chain⟩ := Path.ancestors_eq_cons some_
      exact absurd (firm.starts_of_isDir (goesWell text gs (by simp [chain]) h)) lost

end FileSystem
end ClassPack
