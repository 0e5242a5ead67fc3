import ClassPack.Proofs.Finding

/-!
# Pruning — passing over hidden entries, and what a glob would have matched there

Two mechanisms keep names with a dot in front out of a search: the walk passes over them, and a glob
matches such a dot by itself only. The walk is the stricter one.

* `Glob.Shown` — a text has no dot at the front of a component; `Glob.namesDot`, whether a glob has
  one there; `Glob.shown_of_run`: what the others match is shown;
* `findMatches_iff` — a search that goes well finds the files that are reached by names without dots
  in front and that the globs select. If the wanted glob names no dot there, all files that the
  globs select are found.
-/

namespace ClassPack

open FileSystem

/-! ## Dots at the front of a component -/

namespace Glob

variable {tokens : List Token} {text : List Char} {fresh start deep : Bool}
  {go : List Char → Bool → Verdict}

/-- Whether a component starts with a dot; `fresh` says that one starts at the front of the text. -/
def hides : Bool → List Char → Bool
  | _, [] => false
  | fresh, c :: text => fresh && c == '.' || hides (c == '/') text

/-- Whether a glob has a dot of its own where a component can start; `fresh` says that one can at
its front. A star may take nothing, so behind it the front is where it was. -/
def namesDot : Bool → List Token → Bool
  | _, [] => false
  | fresh, .char c :: rest => fresh && c == '.' || namesDot (c == '/') rest
  | fresh, .some :: rest => namesDot fresh rest
  | _, .deep :: rest => namesDot true rest
  | _, .one :: rest => namesDot false rest
  | _, .within _ :: rest => namesDot false rest
  | _, .without _ :: rest => namesDot false rest

/-- What a star takes has no dot at the front of a component. -/
theorem not_hides_of_sweep (h : sweep deep go text fresh = .matched)
    (onward : ∀ text fresh, (fresh = true → deep = true) → go text fresh = .matched →
      hides fresh text = false) :
    hides fresh text = false := by
  induction text generalizing fresh with
  | nil => rfl
  | cons c text ih =>
      rw [sweep] at h
      split at h
      · cases h
      · rename_i plain
        rw [hides, Bool.or_eq_false_iff]
        refine ⟨by simpa using plain, ?_⟩
        dsimp only at h
        split at h
        · exact ih h
        · split at h
          · cases h
          · rename_i stays
            split at h
            · exact ih h
            · exact onward _ _ (fun slashed => by simpa [slashed] using stays) h

/-- What a glob matches has no dot at the front of a component, unless the glob names one there. -/
theorem not_hides_of_run (plain : namesDot start tokens = false)
    (front : fresh = true → start = true) (matched : run tokens text fresh = .matched) :
    hides fresh text = false := by
  -- Induction on the glob; each token says which of the later ones can meet the front of a
  -- component.
  induction tokens generalizing text fresh start with
  | nil =>
      rw [run] at matched
      split at matched
      · rename_i none_
        simp [none_, hides]
      · cases matched
  | cons t rest ih =>
      have single {u : Bool} (taken : namesDot u rest = false) (one : t ≠ .some ∧ t ≠ .deep)
          (next : ∀ c, t.accepts fresh c = true → (fresh && c == '.') = false ∧
            (c == '/' → u = true)) :
          hides fresh text = false := by
        cases text with
        | nil => rfl
        | cons c text =>
            rw [run] at matched
            · split at matched
              · rename_i accepted
                obtain ⟨shown, follows⟩ := next c accepted
                rw [hides, shown, Bool.false_or]
                exact ih taken follows matched
              · cases matched
            · exact one.1
            · exact one.2
      -- What stands for many characters stands for no slash, and for no dot at a front.
      have passes {c : Char} (h : (c != '/' && !(fresh && c == '.')) = true) :
          (fresh && c == '.') = false ∧ (c == '/' → false = true) := by
        obtain ⟨plain, shown⟩ := Bool.and_eq_true_iff.1 h
        exact ⟨by simpa only [Bool.not_eq_true'] using shown, fun slashed => by
          simp [bne, slashed] at plain⟩
      cases t with
      | char d =>
          rw [namesDot, Bool.or_eq_false_iff] at plain
          refine single plain.2 (by simp) fun c accepted => ?_
          obtain rfl : c = d := by simpa [Token.accepts] using accepted
          refine ⟨?_, id⟩
          cases fresh with
          | false => rfl
          | true => simpa [front rfl] using plain.1
      | some =>
          rw [run] at matched
          split at matched
          · exact not_hides_of_sweep matched fun text fresh' never => ih plain fun there =>
              absurd (never there) (by simp)
          · exact ih plain front matched
      | deep =>
          rw [run] at matched
          split at matched
          · exact not_hides_of_sweep matched fun text fresh' _ => ih plain fun _ => rfl
          · exact ih plain (fun _ => rfl) matched
      | one => exact single plain (by simp) fun c accepted => passes accepted
      | within members =>
          exact single plain (by simp) fun c accepted => passes (Bool.and_eq_true_iff.1 accepted).1
      | without members =>
          exact single plain (by simp) fun c accepted => passes (Bool.and_eq_true_iff.1 accepted).1

/-- What comes after a slash is shown if the whole is. -/
theorem not_hides_of_append {front : List Char} (h : hides fresh (front ++ '/' :: text) = false) :
    hides true text = false := by
  induction front generalizing fresh with
  | nil => exact (Bool.or_eq_false_iff.1 h).2
  | cons c front ih => exact ih (Bool.or_eq_false_iff.1 h).2

theorem head?_ne_of_not_hides (h : hides true text = false) : text.head? ≠ some '.' := by
  cases text with
  | nil => simp
  | cons c text => simpa using (Bool.or_eq_false_iff.1 h).1

end Glob

theorem Utf8.head?_toList {s : String} (h : (encode s).head? = some dot) :
    s.toList.head? = some '.' := by
  cases cs : s.toList with
  | nil =>
      obtain rfl : s = "" := String.toList_injective (by simp [cs])
      simp at h
  | cons c rest =>
      have spelled : encode s = String.utf8EncodeChar c ++ rest.flatMap String.utf8EncodeChar := by
        rw [← String.ofList_toList (s := s), cs, encode_ofList, List.flatMap_cons]
      have first : dot ∈ String.utf8EncodeChar c := by
        cases bytes : String.utf8EncodeChar c with
        | nil =>
            have := String.length_utf8EncodeChar c
            have := c.utf8Size_pos
            simp [bytes] at *
            omega
        | cons b more =>
            rw [spelled, bytes] at h
            exact List.mem_cons.2 (.inl (Option.some.inj h).symm)
      simp [eq_dot_of_mem first]

/-- If a text is shown, no name that it spells starts with a dot. -/
theorem Place.shown_of_text {names : Place} {text : String}
    (spelled : Utf8.encode text = names.relativePath)
    (shown : Glob.hides true text.toList = false) : ∀ n ∈ names, n.bytes.head? ≠ some dot := by
  induction names generalizing text with
  | nil => simp
  | cons n names ih =>
      by_cases last : names = []
      · subst last
        have spelled : Utf8.encode text = n.bytes := spelled
        simpa [← spelled] using fun hidden =>
          Glob.head?_ne_of_not_hides shown (Utf8.head?_toList hidden)
      · obtain ⟨a, b, split, first, rest⟩ := Place.split_text last spelled
        rw [split] at shown
        refine List.forall_mem_cons.2 ⟨?_, ih rest (Glob.not_hides_of_append shown)⟩
        rw [← first]
        intro hidden
        refine Glob.head?_ne_of_not_hides shown ?_
        rw [List.head?_append, Utf8.head?_toList hidden]
        rfl

/-! ## Searches -/

variable {w w' : Workshop} {root path : String} {pattern : ArtifactPattern} {paths : List String}

/-- The files that a walk meets are reached by names that it keeps; a root that is a file is
one of them. -/
theorem FileSystem.leadsToFile_of_met {fs : FileSystem} {keep : Name → Bool} {root : Path}
    {found : Found} (start : fs.at? (root.origin fs.workingDir) = some .directory)
    (met : .ok found ∈ fs.walk keep root) (isFile : found.isFile = true) :
    (∀ n ∈ found.names, keep n = true) ∧ fs.LeadsToFile root found.names := by
  by_cases inner : found.names = []
  · unfold walk at met
    split at met
    · simp at met
    · rcases List.mem_cons.1 met with same | met
      · cases same
        cases isFile
      · obtain ⟨rel, _, some_, same, _⟩ := follow_of_mem_walkFrom met
        simp [inner, some_] at same
    · rename_i here notDirectory looked
      obtain ⟨resolved, there⟩ := lookup_eq_ok_iff.1 looked
      cases e : here.2 with
      | directory => exact (notDirectory here.1 (Prod.ext rfl e)).elim
      | link target =>
          exact absurd (there.trans (by rw [e]))
            (plain_of_follow start (resolve_eq_ok_iff.1 resolved).2 target)
      | file content =>
          rw [inner]
          exact ⟨by simp, here.1, here.1, content, resolved, follow_nil .., there.trans (by rw [e])⟩
  · exact leadsToFile_of_mem_walk met isFile inner

theorem FileSystem.met_of_leadsToFile {fs : FileSystem} {keep : Name → Bool} {root : Path}
    {names : Place} (steady : ∀ fault, .error fault ∉ fs.walk keep root)
    (keeps : ∀ n ∈ names, keep n = true) (leads : fs.LeadsToFile root names) :
    ∃ path, .ok ⟨names, path, true⟩ ∈ fs.walk keep root := by
  by_cases inner : names = []
  · obtain ⟨here, there, content, resolved, followed, file⟩ := leads
    subst inner
    obtain rfl : here = there := by simpa [follow_nil] using followed
    refine ⟨root, ?_⟩
    unfold walk
    rw [lookup_eq_ok_iff.2 ⟨resolved, file⟩]
    exact List.mem_singleton.2 rfl
  · exact mem_walk_of_leadsToFile steady inner keeps leads

/-- A search that goes well finds the files whose paths the pattern selects, if none of the names on
the way there starts with a dot, and no others. Unless the wanted glob names a dot where a component
can start, these are all files that are reached from the root, links followed, and whose paths the
pattern selects. -/
theorem findMatches_iff (h : findMatches root pattern w = .ok paths w')
    (start : w.files.at? (Path.origin (Utf8.encode root) w.files.workingDir) = some .directory) :
    ∃ selector, pattern.compile = .ok selector ∧
      (∀ path, path ∈ paths ↔ selector.selects path = true ∧ ∃ names : Place,
        Utf8.encode path = names.relativePath ∧ w.files.LeadsToFile (Utf8.encode root) names ∧
          ∀ n ∈ names, n.bytes.head? ≠ some dot) ∧
      (Glob.namesDot true selector.wanted = false →
        ∀ path, path ∈ paths ↔ selector.selects path = true ∧ ∃ names : Place,
          Utf8.encode path = names.relativePath ∧
          w.files.LeadsToFile (Utf8.encode root) names) := by
  obtain ⟨selector, compiled, whole, same⟩ := findMatches_ok h
  obtain ⟨steady, met⟩ := mem_untilError whole
  have found : ∀ path, path ∈ paths ↔ selector.selects path = true ∧ ∃ names : Place,
      Utf8.encode path = names.relativePath ∧ w.files.LeadsToFile (Utf8.encode root) names ∧
        ∀ n ∈ names, n.bytes.head? ≠ some dot := by
    intro path
    subst same
    simp only [List.mem_filter, List.mem_filterMap, met]
    constructor
    · rintro ⟨⟨found, ⟨there, isFile⟩, spelled⟩, selected⟩
      have spelled : Utf8.encode path = found.names.relativePath := Utf8.encode_of_decode? spelled
      obtain ⟨kept, leads⟩ := leadsToFile_of_met start there isFile
      refine ⟨selected, found.names, spelled, leads, fun n there hidden => ?_⟩
      simpa [(isHidden_iff spelled n there).2 hidden] using kept n there
    · rintro ⟨selected, names, spelled, leads, shown⟩
      have kept : ∀ n ∈ names, (!n.isHidden) = true := fun n there => by
        simpa using fun hidden => shown n there ((isHidden_iff spelled n there).1 hidden)
      obtain ⟨path', there⟩ := met_of_leadsToFile steady kept leads
      refine ⟨⟨⟨names, path', true⟩, ⟨there, rfl⟩, ?_⟩, selected⟩
      simp [Found.text?, ← spelled]
  refine ⟨selector, compiled, found, fun plain path => (found path).trans
    (and_congr_right fun selected => ?_)⟩
  -- What the wanted glob matches is shown anyway.
  have wanted : Glob.run selector.wanted path.toList true = .matched := by
    simp only [Selector.selects, Glob.isMatch, Bool.and_eq_true, beq_iff_eq] at selected
    exact selected.1
  have shown := Glob.not_hides_of_run plain id wanted
  constructor
  · rintro ⟨names, spelled, leads, _⟩
    exact ⟨names, spelled, leads⟩
  · rintro ⟨names, spelled, leads⟩
    exact ⟨names, spelled, leads, Place.shown_of_text spelled shown⟩

/-- A game with class files in the open and under names that start with a dot. -/
def dottedGame : FileSystem :=
  ([("/pz", .directory), ("/pz/a.class", holding "open"), ("/pz/.class", holding "hidden"),
    ("/pz/.cache", .directory), ("/pz/.cache/Foo.class", holding "hidden")]
  : List (String × Entry)).foldl (fun fs (text, e) => fs.plant text e) (empty {})

theorem findMatches_iff_dotted :
    ∃ (w₁ w₂ : Workshop) (selector : Selector),
      findMatches "/pz" ⟨"**/*", []⟩ ⟨dottedGame, [], []⟩ = .ok ["a.class"] w₁ ∧
      findMatches "/pz" .classFiles ⟨dottedGame, [], []⟩ = .ok ["a.class"] w₂ ∧
      ∀ path, path ∈ ["a.class"] ↔ selector.selects path = true ∧ ∃ names : Place,
        Utf8.encode path = names.relativePath ∧
        dottedGame.LeadsToFile (Utf8.encode "/pz") names := by
  have all : resultOf? (findMatches "/pz" ⟨"**/*", []⟩ ⟨dottedGame, [], []⟩) =
    some ["a.class"] := by decide +kernel
  have classes : resultOf? (findMatches "/pz" .classFiles ⟨dottedGame, [], []⟩) =
      some ["a.class"] := by
    decide +kernel
  obtain ⟨w₁, all⟩ := resultOf?_eq_some all
  obtain ⟨w₂, classes⟩ := resultOf?_eq_some classes
  obtain ⟨selector, compiled, _, found⟩ := findMatches_iff all (dottedGame.at?_root)
  have read : ArtifactPattern.compile ⟨"**/*", []⟩ = .ok ⟨[.deep, .some], []⟩ := by decide +kernel
  cases read.symm.trans compiled
  exact ⟨w₁, w₂, _, all, classes, found (by decide)⟩

/-- A search goes well and a path is not found, although it is that of a file reached from the root,
and the pattern selects it. -/
structure Misses (fs : FileSystem) (root : String) (pattern : ArtifactPattern) (path : String) :
    Prop where
  found : ∃ paths w, findMatches root pattern ⟨fs, [], []⟩ = .ok paths w ∧ path ∉ paths
  selected : ∃ selector, pattern.compile = .ok selector ∧ selector.selects path = true
  reached : ∃ names : Place, Utf8.encode path = names.relativePath ∧
    fs.LeadsToFile (Utf8.encode root) names

/-- A glob that names a dot at the front of a component finds nothing there, and the glob for class
files does not find a file with nothing before the ending. -/
theorem match_lost_to_pruning :
    Misses dottedGame "/pz" ⟨".cache/*.class", []⟩ ".cache/Foo.class" ∧
    Misses dottedGame "/pz" .classFiles ".class" := by
  have cached : resultOf? (findMatches "/pz" ⟨".cache/*.class", []⟩ ⟨dottedGame, [], []⟩) =
    some [] := by decide +kernel
  have classes : resultOf? (findMatches "/pz" .classFiles ⟨dottedGame, [], []⟩) =
      some ["a.class"] := by
    decide +kernel
  obtain ⟨w₁, cached⟩ := resultOf?_eq_some cached
  obtain ⟨w₂, classes⟩ := resultOf?_eq_some classes
  have reached : ∀ names : Place, dottedGame.follow 40 (Path.spelled (Utf8.encode "/pz"))
      (names.map .name) = .ok ⟨Path.spelled (Utf8.encode "/pz") ++ names, 40⟩ →
      dottedGame.isFileAt (Path.spelled (Utf8.encode "/pz") ++ names) = true →
      dottedGame.LeadsToFile (Utf8.encode "/pz") names := fun names followed file => by
    obtain ⟨content, file⟩ := isFileAt_iff.1 file
    exact ⟨⟨_, 40⟩, ⟨_, 40⟩, content, by decide, followed, file⟩
  have read : ArtifactPattern.compile ⟨".cache/*.class", []⟩ =
      .ok ⟨".cache/".toList.map .char ++ .some :: ".class".toList.map .char, []⟩ := by
        decide +kernel
  constructor
  · exact ⟨⟨[], w₁, cached, by simp⟩, ⟨_, read, by decide⟩,
      ⟨Path.spelled (Utf8.encode ".cache/Foo.class"), by decide,
        reached _ (by decide) (by decide)⟩⟩
  · exact ⟨⟨["a.class"], w₂, classes, by decide⟩,
      ⟨_, ArtifactPattern.compile_classFiles, by decide⟩,
      ⟨Path.spelled (Utf8.encode ".class"), by decide,
        reached _ (by decide) (by decide)⟩⟩

end ClassPack
