import ClassPack.Proofs.FileSystem.Succeeding

/-!
# Overwriting — files that are there can be written over

A text that is read from a directory and arrives at a file

* can be opened for writing, and the file is what is opened: `writingSite_of_arrives`;
* has the directories above it already: `createDirs_parent_of_arrives`.
-/

namespace ClassPack
namespace FileSystem

variable {fs : FileSystem} {p t : Place} {text : Path} {links : Nat} {s : List Segment}
  {m : Standing} {content : Content}

/-! ## Opening for writing -/

/-- Links that have been followed are not to be followed any more. -/
theorem follow_links_le (way : fs.follow links p s = .ok m) : m.links ≤ links := by
  fun_induction follow fs links p s with
  | case2 links p s q arrived =>
      cases way
      exact Nat.le_refl _
  | case4 p s dir target rest stretch left ih => exact Nat.le_succ_of_le (ih way)
  | _ => cases way

/-- Steps from a directory to a file end in a name. -/
theorem exists_name_of_follow (start : fs.at? p = some .directory)
    (way : fs.follow links p s = .ok m) (file : fs.at? m.place = some (.file content)) :
    ∃ before n m', s = before ++ [.name n] ∧ fs.follow links p before = .ok m' ∧
      fs.follow m'.links m'.place [.name n] = .ok m := by
  rcases List.eq_nil_or_concat' s with rfl | ⟨before, last, rfl⟩
  · rw [follow_nil] at way
    cases way
    simp [start] at file
  · obtain ⟨m', front, back⟩ := follow_prefix way
    have stands : fs.at? m'.place ≠ none := at?_ne_none_of_follow (by simp [start]) front
    cases last with
    | name n => exact ⟨before, n, m', rfl, front, back⟩
    | here =>
        obtain ⟨open_, stay⟩ := follow_here_ok back
        rw [follow_nil] at stay
        cases stay
        simp [at?_of_readable stands open_] at file
    | up =>
        -- What stands above a directory is a directory.
        obtain ⟨open_, stay⟩ := follow_up_ok back
        rw [follow_nil] at stay
        cases stay
        simp [at?_place_parent stands] at file

/-- No slash stands at the end of a text that leads to a file. -/
theorem follow_segments_of_file (way : fs.follow links p text.steps = .ok m)
    (file : fs.at? m.place = some (.file content)) :
    text.endsInSlash = false ∧ fs.follow links p text.segments = .ok m := by
  cases slashed : text.endsInSlash with
  | false => exact ⟨rfl, by simpa [Path.steps, slashed] using way⟩
  | true =>
      rw [Path.steps, slashed] at way
      obtain ⟨m', _, last⟩ := follow_prefix way
      obtain ⟨open_, stay⟩ := follow_here_ok last
      rw [follow_nil] at stay
      cases stay
      simp [readable, file] at open_

/-- A file that steps lead to is what is opened when they are taken, links followed. -/
theorem creationSite_of_follow {hops : Nat} (enough : links < hops)
    (start : fs.at? p = some .directory) (way : fs.follow links p s = .ok m)
    (file : fs.at? m.place = some (.file content)) :
    ∃ dir n, fs.creationSite hops links p s false = .ok (dir, n) ∧ dir ++ [n] = m.place := by
  induction hops generalizing links p s with
  | zero => omega
  | succ hops ih =>
      obtain ⟨before, n, ⟨dir, left⟩, rfl, front, back⟩ := exists_name_of_follow start way file
      obtain ⟨enter, short, present⟩ := follow_name_ok back
      have fewer : left ≤ links := follow_links_le front
      have located : fs.locateFrom links p (before ++ [.name n]) false =
          .ok (.entry dir n false, left) := by
        simp [locateFrom, front, enter, short, bind, Except.bind]
      unfold creationSite
      rw [located]
      simp only [bind, Except.bind]
      obtain ⟨e, there⟩ := Option.ne_none_iff_exists'.1 present
      cases e with
      | file content' =>
          cases back.symm.trans (follow_name_of_plain left there (by simp))
          exact ⟨dir, n, by simp [there], rfl⟩
      | directory =>
          cases back.symm.trans (follow_name_of_plain left there (by simp))
          simp [there] at file
      | link target =>
          -- The target is read on, with one link less to follow.
          have stretch : fs.scan dir [.name n] = .ok (.link dir target []) := by
            simp [scan, enter, short, there]
          rw [follow, stretch] at back
          cases left with
          | zero => cases back
          | succ left =>
              obtain ⟨noSlash, onward⟩ := follow_segments_of_file (by simpa using back) file
              have above : fs.at? dir = some .directory := at?_of_enterable enter
              have start' : fs.at? (target.origin dir) = some .directory := by
                unfold Path.origin
                split <;> simp [above]
              simpa [there, noSlash] using ih (by omega) start' onward

/-- A file that a text arrives at is what is opened under the text. -/
theorem writingSite_of_arrives (start : fs.at? (text.origin fs.workingDir) = some .directory)
    (arrives : fs.Arrives text t) (file : fs.at? t = some (.file content)) :
    ∃ dir n, fs.writingSite text = .ok (dir, n) ∧ dir ++ [n] = t := by
  obtain ⟨left, resolved⟩ := arrives
  obtain ⟨fit, way⟩ := resolve_eq_ok_iff.1 resolved
  obtain ⟨noSlash, way⟩ := follow_segments_of_file way file
  obtain ⟨dir, n, site, same⟩ := creationSite_of_follow (Nat.lt_succ_self _) start way file
  exact ⟨dir, n, by simp [writingSite, fit, noSlash, site, refused, bind, Except.bind], same⟩

/-! ## The directories above -/

/-- Above a file that a text arrives at nothing is to be made. -/
theorem createDirs_parent_of_arrives {upper : Path}
    (start : fs.at? (text.origin fs.workingDir) = some .directory) (arrives : fs.Arrives text t)
    (file : fs.at? t = some (.file content)) (up : Path.parent? text = some upper) :
    createDirs upper fs = .ok () fs := by
  by_cases some_ : upper = []
  · subst some_
    rfl
  obtain ⟨left, resolved⟩ := arrives
  obtain ⟨fit, way⟩ := resolve_eq_ok_iff.1 resolved
  obtain ⟨_, way⟩ := follow_segments_of_file way file
  obtain ⟨before, n, ⟨dir, links⟩, steps, front, last⟩ := exists_name_of_follow start way file
  have directory : fs.at? dir = some .directory := at?_of_enterable (follow_name_ok last).1
  have above : Path.Upper text upper := by
    have named : Segment.name n ∈ text.segments := by simp [steps]
    obtain ⟨upper', above⟩ := Path.exists_upper (zero_not_mem_of_vet fit) named (by simp)
    obtain rfl : upper = upper' := by simpa [up] using above.parent
    exact above
  obtain ⟨k, rfl⟩ := above.steps_of_name steps
  obtain ⟨m, front, dots⟩ := follow_prefix front
  obtain rfl : m = ⟨dir, links⟩ := follow_dots_ok dots
  refine createDirs_of_isDir (isDir_iff.2 ⟨dir, ⟨links, resolve_eq_ok_iff.2 ⟨?_, ?_⟩⟩, directory⟩)
  · have short := exceeds_of_le (Path.length_le_of_parent? up) (not_exceeds_of_vet fit)
    simp [vet, above.noZero, some_, short]
  · rw [Path.steps, above.origin_eq some_, follow_append, front]
    cases upper.endsInSlash with
    | true => simp [follow, scan, readable, directory]
    | false => exact follow_nil ..

end FileSystem
end ClassPack
