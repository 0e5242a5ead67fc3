import ClassPack.Proofs.FileSystem.Planting
import ClassPack.Proofs.FileSystem.Walking
import ClassPack.Proofs.Glob.Selecting
import ClassPack.Proofs.Steps

/-!
# Finding — which files the two families are

* `findMatches_ok`, what a search gives that goes well; `findMatches_congr` and `findMatches_nodup`;
* `Shows` — a text spells names, none of them hidden, that lead from the source root to a file
  and end as asked;
* `mem_findMatches_iff` — class files are the files shown with the ending `.class`; jars those shown
  with `.jar`, but for the ones that lie, at whatever depth, in the game's own Java runtimes.
-/

namespace ClassPack

open FileSystem

variable {w w' : Workshop} {root path : String} {names : Place} {pattern : ArtifactPattern}
  {selector : Selector}

/-- Without an error, all of a list comes before it. -/
theorem eq_map_of_untilError {ε α : Type} {l : List (Except ε α)}
    (whole : (untilError l).2 = none) : l = (untilError l).1.map .ok := by
  induction l with
  | nil => rfl
  | cons x rest ih =>
      cases x with
      | error e => simp [untilError] at whole
      | ok a => simpa [untilError] using ih whole

theorem mem_untilError {ε α : Type} {l : List (Except ε α)} (whole : (untilError l).2 = none) :
    (∀ e, .error e ∉ l) ∧ ∀ a, a ∈ (untilError l).1 ↔ .ok a ∈ l := by
  have all := eq_map_of_untilError whole
  generalize (untilError l).1 = found at all
  subst all
  exact ⟨by simp, by simp⟩

theorem untilError_of_steady {ε α : Type} {l : List (Except ε α)} (steady : ∀ e, .error e ∉ l) :
    (untilError l).2 = none := by
  induction l with
  | nil => rfl
  | cons x rest ih =>
      cases x with
      | error e => exact absurd (List.mem_cons_self ..) (steady e)
      | ok a => exact ih fun e there => steady e (List.mem_cons_of_mem _ there)

/-- A search that goes well has met no obstacle, and gives the files met that its globs select. -/
theorem findMatches_ok {paths : List String} (h : findMatches root pattern w = .ok paths w') :
    ∃ selector, pattern.compile = .ok selector ∧ (untilError (visits w.files root)).2 = none ∧
      paths = (((untilError (visits w.files root)).1.filter (·.isFile)).filterMap
        Found.text?).filter selector.selects := by
  unfold findMatches at h
  cases compiled : pattern.compile with
  | error e =>
      rw [compiled] at h
      cases h
  | ok selector =>
      rw [compiled, bind_of_ok (show Work.ofExcept (.ok selector) w = .ok selector w from rfl),
        bind_of_ok (show Work.view _ w = .ok _ w from rfl)] at h
      obtain ⟨_, _, _, h⟩ := bind_eq_ok.1 h
      refine ⟨selector, rfl, ?_⟩
      cases fault : (untilError (visits w.files root)).2 with
      | some fault =>
          rw [fault] at h
          cases h
      | none =>
          rw [fault] at h
          cases h
          exact ⟨rfl, rfl⟩

/-- A search depends on what the walk meets, and on nothing else. -/
theorem findMatches_congr {paths : List String} {v : Workshop}
    (h : findMatches root pattern w = .ok paths w')
    (same : visits v.files root = visits w.files root) :
    ∃ v', findMatches root pattern v = .ok paths v' := by
  obtain ⟨selector, compiled, whole, rfl⟩ := findMatches_ok h
  unfold findMatches
  rw [compiled, bind_of_ok (show Work.ofExcept (.ok selector) v = .ok selector v from rfl),
    bind_of_ok (show Work.view _ v = .ok _ v from rfl), same]
  dsimp only
  rw [bind_of_ok (show Work.logAll _ _ v = .ok () _ from rfl), whole]
  exact ⟨_, rfl⟩

/-- No path is found twice. -/
theorem findMatches_nodup {paths : List String} (h : findMatches root pattern w = .ok paths w') :
    paths.Nodup := by
  obtain ⟨selector, _, whole, rfl⟩ := findMatches_ok h
  have distinct : (visits w.files root).Pairwise Distinct := walk_distinct
  rw [eq_map_of_untilError whole, List.pairwise_map] at distinct
  refine List.Nodup.filter _ (List.pairwise_filterMap.2 ((distinct.filter _).imp ?_))
  intro found found' apart text spelled text' spelled' same
  refine apart rfl rfl (Path.relativePath_injective ?_)
  exact (Utf8.encode_of_decode? spelled).symm.trans (same ▸ Utf8.encode_of_decode? spelled')

/-! ## What is shown -/

/-- A text spells names, none of them hidden. From the root they lead to a file, every link on the
way followed, and the last of them ends as asked. -/
structure Shows (fs : FileSystem) (root ext path : String) (names : Place) : Prop where
  names_ne_nil : names ≠ []
  spelled : Utf8.encode path = names.relativePath
  shown : ∀ n ∈ names, n.bytes.head? ≠ some dot
  leads : fs.LeadsToFile (Utf8.encode root) names
  ending : names.EndsIn ext

/-- Names of a text are hidden if they start with a dot. -/
theorem isHidden_iff (spelled : Utf8.encode path = names.relativePath) :
    ∀ n ∈ names, n.isHidden = true ↔ n.bytes.head? = some dot := by
  intro n there
  simp [Name.isHidden, Place.text?_of_encode spelled n there]

/-- What is found is what the walk comes to, over names that are not hidden, if the globs select
it. -/
theorem mem_of_findMatches {paths : List String} (h : findMatches root pattern w = .ok paths w')
    (compiled : pattern.compile = .ok selector) (rootless : selector.selects "" = false) :
    path ∈ paths ↔
      ∃ names : Place, names ≠ [] ∧ Utf8.encode path = names.relativePath ∧
        (∀ n ∈ names, n.bytes.head? ≠ some dot) ∧ w.files.LeadsToFile (Utf8.encode root) names ∧
        selector.selects path = true := by
  obtain ⟨selector', compiled', whole, rfl⟩ := findMatches_ok h
  obtain rfl : selector = selector' := by simpa [compiled] using compiled'
  obtain ⟨steady, met⟩ := mem_untilError whole
  simp only [List.mem_filter, List.mem_filterMap, met]
  constructor
  · rintro ⟨⟨found, ⟨there, isFile⟩, spelled⟩, selected⟩
    have spelled : Utf8.encode path = found.names.relativePath := Utf8.encode_of_decode? spelled
    have inner : found.names ≠ [] := by
      intro none_
      obtain rfl : path = "" :=
        Utf8.encode_injective (by simpa [none_, Place.relativePath, Path.glue] using spelled)
      simp [rootless] at selected
    obtain ⟨kept, leads⟩ := leadsToFile_of_mem_walk there isFile inner
    refine ⟨found.names, inner, spelled, ?_, leads, selected⟩
    intro n there hidden
    simpa [(isHidden_iff spelled n there).2 hidden] using kept n there
  · rintro ⟨names, inner, spelled, shown, leads, selected⟩
    have kept : ∀ n ∈ names, (!n.isHidden) = true := by
      intro n there
      simpa using fun hidden => shown n there ((isHidden_iff spelled n there).1 hidden)
    obtain ⟨path', there⟩ := mem_walk_of_leadsToFile steady inner kept leads
    refine ⟨⟨⟨names, path', true⟩, ⟨there, rfl⟩, ?_⟩, selected⟩
    simp [Found.text?, ← spelled]

/-- A search for class files that goes well finds exactly the files shown with their ending,
and a search for jars exactly those shown with theirs that lie in neither of the game's own
Java runtimes. -/
theorem mem_findMatches_iff {root : String} {w w' : Workshop} {paths : List String} :
    (findMatches root .classFiles w = .ok paths w' →
      ∀ path, path ∈ paths ↔ ∃ names, Shows w.files root ".class" path names) ∧
    (findMatches root .prebuiltArchives w = .ok paths w' →
      ∀ path, path ∈ paths ↔ ∃ names, Shows w.files root ".jar" path names ∧
        ¬ names.GoesThrough "jre" ∧ ¬ names.GoesThrough "jre64") := by
  constructor
  · intro h path
    rw [mem_of_findMatches h ArtifactPattern.compile_classFiles (by decide)]
    constructor
    · rintro ⟨names, inner, spelled, shown, leads, selected⟩
      have wanted : Glob.isMatch (Glob.anywhere ".class".toList) path = true := by
        simpa [Selector.selects] using selected
      exact ⟨names, inner, spelled, shown, leads,
        (Glob.isMatch_anywhere (by decide) (by decide) inner spelled shown).1 wanted⟩
    · rintro ⟨names, inner, spelled, shown, leads, ending⟩
      have wanted := (Glob.isMatch_anywhere (by decide) (by decide) inner spelled shown).2 ending
      exact ⟨names, inner, spelled, shown, leads, by simpa [Selector.selects] using wanted⟩
  · intro h path
    rw [mem_of_findMatches h ArtifactPattern.compile_prebuiltArchives (by decide)]
    -- With the ending given, a glob for a runtime only looks at the first name.
    have selects : ∀ {names : Place}, names ≠ [] → Utf8.encode path = names.relativePath →
        (∀ n ∈ names, n.bytes.head? ≠ some dot) →
        (Selector.selects ⟨Glob.anywhere ".jar".toList, ["jre", "jre64"].map fun dir =>
            dir.toList.map .char ++ .char '/' :: Glob.anywhere ".jar".toList⟩ path = true ↔
          names.EndsIn ".jar" ∧ ¬ names.GoesThrough "jre" ∧ ¬ names.GoesThrough "jre64") := by
      intro names inner spelled shown
      have wanted : Glob.isMatch (Glob.anywhere ".jar".toList) path = true ↔ names.EndsIn ".jar" :=
        Glob.isMatch_anywhere (by decide) (by decide) inner spelled shown
      have unwanted : ∀ dir : String, '/' ∉ dir.toList →
          (Glob.isMatch (dir.toList.map .char ++ .char '/' :: Glob.anywhere ".jar".toList) path =
            true ↔ names.GoesThrough dir ∧ names.EndsIn ".jar") := fun dir plain =>
        Glob.isMatch_within (by decide) (by decide) inner spelled shown plain
      have jre := unwanted "jre" (by decide)
      have jre64 := unwanted "jre64" (by decide)
      rw [Selector.selects, Bool.and_eq_true, wanted, Bool.not_eq_true', List.any_eq_false]
      simp only [List.map_cons, List.map_nil, List.forall_mem_cons, List.not_mem_nil, false_imp_iff,
        implies_true, and_true]
      rw [jre, jre64]
      constructor
      · rintro ⟨ending, notJre, notJre64⟩
        exact ⟨ending, fun through => notJre ⟨through, ending⟩, fun through => notJre64
          ⟨through, ending⟩⟩
      · rintro ⟨ending, notJre, notJre64⟩
        exact ⟨ending, fun both => notJre both.1, fun both => notJre64 both.1⟩
    constructor
    · rintro ⟨names, inner, spelled, shown, leads, selected⟩
      obtain ⟨ending, outside⟩ := (selects inner spelled shown).1 selected
      exact ⟨names, ⟨inner, spelled, shown, leads, ending⟩, outside⟩
    · rintro ⟨names, ⟨inner, spelled, shown, leads, ending⟩, outside⟩
      exact ⟨names, inner, spelled, shown, leads, (selects inner spelled shown).2 ⟨ending, outside⟩⟩

/-- A game with a class file, a jar of its own runtime, a jar in a directory of that name further
down, and a link. -/
def runtimeGame : FileSystem :=
  ([("/pz", .directory), ("/pz/a.class", holding "class"), ("/pz/.b.class", holding "hidden"),
    ("/pz/jre", .directory), ("/pz/jre/rt.jar", holding "runtime"), ("/pz/mods", .directory),
    ("/pz/mods/jre", .directory), ("/pz/mods/jre/x.jar", holding "jar"),
    ("/pz/jre64", linkTo "mods/jre"), ("/pz/l", linkTo "mods")]
  : List (String × Entry)).foldl (fun fs (text, e) => fs.plant text e) (empty {})

theorem mem_findMatches_iff_runtime :
    ∃ w₁ w₂, findMatches "/pz" .classFiles ⟨runtimeGame, [], []⟩ = .ok ["a.class"] w₁ ∧
      findMatches "/pz" .prebuiltArchives ⟨runtimeGame, [], []⟩ =
        .ok ["l/jre/x.jar", "mods/jre/x.jar"] w₂ ∧
      (∀ path, path ∈ ["a.class"] ↔ ∃ names, Shows runtimeGame "/pz" ".class" path names) ∧
      ∀ path, path ∈ ["l/jre/x.jar", "mods/jre/x.jar"] ↔
        ∃ names, Shows runtimeGame "/pz" ".jar" path names ∧
          ¬ names.GoesThrough "jre" ∧ ¬ names.GoesThrough "jre64" := by
  have classes : resultOf? (findMatches "/pz" .classFiles ⟨runtimeGame, [], []⟩) =
      some ["a.class"] := by
    decide +kernel
  have jars : resultOf? (findMatches "/pz" .prebuiltArchives ⟨runtimeGame, [], []⟩) =
      some ["l/jre/x.jar", "mods/jre/x.jar"] := by decide +kernel
  obtain ⟨w₁, classes⟩ := resultOf?_eq_some classes
  obtain ⟨w₂, jars⟩ := resultOf?_eq_some jars
  exact ⟨w₁, w₂, classes, jars, mem_findMatches_iff.1 classes, mem_findMatches_iff.2 jars⟩

end ClassPack
