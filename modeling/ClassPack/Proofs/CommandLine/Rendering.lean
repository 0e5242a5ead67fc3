import ClassPack.Proofs.CommandLine.Accounts

/-!
# Rendering — arguments that make given choices

* `Choice` — one argument before the source root: an option with its value, or a flag.
  `Options.choices` are those that options amount to: `renderChoices_eq`;
* `Options.partly` — the reading of which certain keys have come. It depends on which keys these
  are, and not on their order;
* `readAll_choices` — each argument takes the reading one key further, so that arguments may
  come in any order;
* `ofArgs_render_iff` — consistent options, and no others, are read back from what is rendered.
-/

namespace ClassPack

/-! ## Choices -/

/-- The name of a key after two dashes. -/
def Key.name : Key → String
  | .option .source => "source"
  | .option .outDir => "out-dir"
  | .option .stagingDir => "staging-dir"
  | .option .gameVersion => "game-version"
  | .option .archiveExtension => "archive-ext"
  | .option .archiver => "archiver"
  | .option .archiverTimeout => "archiver-timeout"
  | .option .workingDir => "working-dir"
  | .option .sourceArgument => ""
  | .flag .dryRun => "dry-run"
  | .flag .verbose => "verbose"
  | .flag .quiet => "quiet"
  | .flag .json => "json"
  | .flag .help => "help"
  | .flag .version => "version"

/-- An argument before the source root. -/
inductive Choice where
  | value (key : ValueOption) (text : String)
  | flag (f : Flag)
  deriving DecidableEq, Repr

namespace Choice

def key : Choice → Key
  | .value key _ => .option key
  | .flag f => .flag f

/-- How a choice is written. -/
def text : Choice → String
  | .value key text => "--" ++ (Key.option key).name ++ "=" ++ text
  | .flag .verbose => "-v"
  | .flag f => "--" ++ (Key.flag f).name

theorem text_value (key : ValueOption) (value : String) :
    (Choice.value key value).text =
      String.ofList ('-' :: '-' :: ((Key.option key).name.toList ++ '=' :: value.toList)) := by
  simp [← String.toList_inj, text]

theorem text_flag {f : Flag} (other : f ≠ .verbose) :
    (Choice.flag f).text = String.ofList ('-' :: '-' :: (Key.flag f).name.toList) := by
  cases f with
  | verbose => exact absurd rfl other
  | _ => rfl

/-- Options have a choice if it changes nothing in them. -/
def Fits (o : Options) : Choice → Prop
  | .value key text => key ≠ .sourceArgument ∧ Reading.setValue o key text = .ok o
  | .flag .dryRun => o.dryRun = true
  | .flag .quiet => o.quiet = true
  | .flag .json => o.json = true
  | .flag .verbose => True
  | .flag .help | .flag .version => False

end Choice

namespace Options

variable {o : Options} {k : Key} {ks : List Key}

/-- The arguments that options amount to under a key. -/
def choicesUnder (o : Options) : Key → List Choice
  | .option .source => (o.source.map (.value .source)).toList
  | .option .outDir => if o.outDir = ({} : Options).outDir then [] else [.value .outDir o.outDir]
  | .option .stagingDir =>
      if o.stagingDir = ({} : Options).stagingDir then [] else [.value .stagingDir o.stagingDir]
  | .option .gameVersion =>
      if o.gameVersion = ({} : Options).gameVersion then [] else [.value .gameVersion o.gameVersion]
  | .option .archiveExtension =>
      if o.archiveExtension = ({} : Options).archiveExtension then []
      else [.value .archiveExtension o.archiveExtension]
  | .option .archiver =>
      if o.archiver = ({} : Options).archiver then [] else [.value .archiver o.archiver.flagName]
  | .option .archiverTimeout =>
      (o.archiverTimeout.map fun n => .value .archiverTimeout (toString n)).toList
  | .option .workingDir => (o.workingDir.map (.value .workingDir)).toList
  | .option .sourceArgument => []
  | .flag .dryRun => if o.dryRun then [.flag .dryRun] else []
  | .flag .verbose => List.replicate o.verbosity (.flag .verbose)
  | .flag .quiet => if o.quiet then [.flag .quiet] else []
  | .flag .json => if o.json then [.flag .json] else []
  | .flag .help | .flag .version => []

attribute [local simp] choicesUnder

/-- The arguments that options amount to, the source root's apart. -/
def choices (o : Options) : List Choice := (longKeys.map (·.2)).flatMap o.choicesUnder

theorem renderChoices_eq (o : Options) : o.renderChoices = o.choices.map Choice.text := by
  simp [renderChoices, choices, longKeys, Choice.text, Key.name, Option.toList_map,
    apply_ite (List.map Choice.text), Function.comp_def]

theorem key_of_mem_choicesUnder {c : Choice} (there : c ∈ o.choicesUnder k) : c.key = k := by
  rcases k with (_ | _) | (_ | _) <;> grind [choicesUnder, Choice.key, Option.map_eq_some_iff]

theorem mem_choicesUnder_iff : o.choicesUnder k ≠ [] ↔ o.Makes k ∧ k ≠ .option .sourceArgument := by
  rcases k with (_ | _) | (_ | _) <;>
    simp [Makes, Nat.pos_iff_ne_zero, Option.eq_none_iff_forall_ne_some]

theorem length_choicesUnder_le (o : Options) (other : k ≠ .flag .verbose) :
    (o.choicesUnder k).length ≤ 1 := by
  rcases k with (_ | _) | (_ | _) <;> grind [choicesUnder]

theorem count_choices (o : Options) (k : Key) :
    (o.choices.map Choice.key).count k = (o.choicesUnder k).length := by
  have own : ∀ k', ((o.choicesUnder k').map Choice.key).count k =
      if k' = k then (o.choicesUnder k).length else 0 := by
    intro k'
    have all : (o.choicesUnder k').map Choice.key = List.replicate (o.choicesUnder k').length k' :=
      List.eq_replicate_iff.2 ⟨List.length_map .., by
        simpa using fun c there => key_of_mem_choicesUnder there⟩
    rw [all, List.count_replicate]
    split <;> simp_all
  simp only [choices, List.map_flatMap, List.count_flatMap, Function.comp_def, own]
  rcases k with (_ | _) | (_ | _) <;> simp [longKeys]

/-! ## Reading in part -/

/-- Options with the choices under certain keys, and the defaults for the rest. -/
def restrict (o : Options) (ks : List Key) : Options where
  sourceArgument := if .option .sourceArgument ∈ ks then o.sourceArgument else none
  source := if .option .source ∈ ks then o.source else none
  outDir := if .option .outDir ∈ ks then o.outDir else ({} : Options).outDir
  stagingDir := if .option .stagingDir ∈ ks then o.stagingDir else ({} : Options).stagingDir
  gameVersion := if .option .gameVersion ∈ ks then o.gameVersion else ({} : Options).gameVersion
  archiveExtension :=
    if .option .archiveExtension ∈ ks then o.archiveExtension else ({} : Options).archiveExtension
  archiver := if .option .archiver ∈ ks then o.archiver else ({} : Options).archiver
  archiverTimeout := if .option .archiverTimeout ∈ ks then o.archiverTimeout else none
  workingDir := if .option .workingDir ∈ ks then o.workingDir else none
  dryRun := if .flag .dryRun ∈ ks then o.dryRun else false
  verbosity := min 255 (ks.count (.flag .verbose))
  quiet := if .flag .quiet ∈ ks then o.quiet else false
  json := if .flag .json ∈ ks then o.json else false

/-- Once all keys have come, all choices are made. -/
theorem restrict_eq (all : ∀ k, o.Makes k → k ∈ ks)
    (words : ks.count (.flag .verbose) = o.verbosity) (bound : o.verbosity ≤ 255) :
    o.restrict ks = o := by
  have default : ∀ k, k ∉ ks → ¬ o.Makes k := fun k missing makes => missing (all k makes)
  obtain ⟨⟩ := o
  simp only [restrict, Options.mk.injEq, ite_eq_left_iff]
  refine ⟨?_, ?_, ?_, ?_, ?_, ?_, ?_, ?_, ?_, ?_, by simp_all, ?_, ?_⟩
  all_goals
    intro missing
    simpa [Makes, eq_comm] using default _ missing

/-- The reading of which certain keys have come; `seen` is whether the source root has. -/
def partly (o : Options) (ks : List Key) (seen : Bool := false) : Reading where
  options := o.restrict ks
  given := ks
  argumentSeen := seen

theorem setValue_restrict {key : ValueOption} {value : String}
    (fits : Reading.setValue o key value = .ok o) (ks : List Key) :
    Reading.setValue (o.restrict ks) key value = .ok (o.restrict (.option key :: ks)) := by
  cases key with
  | archiver | archiverTimeout =>
      simp only [Reading.setValue] at fits ⊢
      split at fits
      · simp [restrict]
        grind
      · cases fits
  | _ =>
      have same := Except.ok.inj fits
      simp [Reading.setValue, restrict]
      grind

/-! ## Steps -/

theorem store_partly {key : ValueOption} {value : String} {seen : Bool} (new : .option key ∉ ks)
    (fits : Reading.setValue o key value = .ok o) :
    (o.partly ks seen).store key value = .ok (o.partly (.option key :: ks) seen) := by
  have set : Reading.setValue (o.partly ks seen).options key value =
      .ok (o.restrict (.option key :: ks)) :=
    setValue_restrict fits ks
  unfold Reading.store
  rw [if_neg (by simpa [partly] using new), set]
  rfl

theorem raise_partly {f : Flag} (new : .flag f ∉ ks ∨ f = .verbose)
    (fits : (Choice.flag f).Fits o) : (o.partly ks).raise f = .ok (o.partly (.flag f :: ks)) := by
  cases f with
  | help | version => cases fits
  | verbose =>
      simp [Reading.raise, Reading.flush, partly, restrict, bind, Except.bind]
      omega
  | dryRun | quiet | json =>
      have new := new.resolve_right (by simp)
      simp_all [Choice.Fits, Reading.raise, Reading.flush, partly, restrict, bind, Except.bind]

end Options

namespace Reading

variable {r : Reading} {rest : List String}

theorem readAll_long {name : List Char} (some_ : name ≠ []) :
    readAll false r (String.ofList ('-' :: '-' :: name) :: rest) = r.long name >>=
      (readAll false · rest) := by
  obtain ⟨c, more, rfl⟩ := List.exists_cons_of_ne_nil some_
  simp [readAll]

theorem readAll_letters {c : Char} {more : List Char} (letter : c ≠ '-') :
    readAll false r (String.ofList ('-' :: c :: more) :: rest) =
      r.letters (c :: more) >>= (readAll false · rest) := by
  simp [readAll, letter]

/-- A name with a value behind it. -/
theorem long_value {key : ValueOption} (named : key ≠ .sourceArgument) (value : List Char) :
    r.long ((Key.option key).name.toList ++ '=' :: value) = r.attach key (String.ofList value) := by
  have unequal : (Key.option key).name.toList.all (· != '=') = true := by cases key <;> decide
  have plain := List.all_eq_true.1 unequal
  have known : longKeys.lookup (Key.option key).name = some (.option key) := by
    cases key with
    | sourceArgument => exact absurd rfl named
    | _ => rfl
  unfold Reading.long
  rw [List.takeWhile_append_of_pos plain, List.dropWhile_append_of_pos plain]
  simp [known]

/-- A name alone. -/
theorem long_flag (f : Flag) : r.long (Key.flag f).name.toList = r.raise f := by
  cases f <;> rfl

theorem letters_verbose : r.letters ['v'] = r.raise .verbose := by
  have known : shortKeys.lookup 'v' = some (.flag .verbose) := rfl
  cases raised : r.raise .verbose <;> simp [letters, known, raised]

end Reading

namespace Options

variable {o : Options} {ks : List Key} {rest : List String}

/-- A choice that options have takes the reading one key further. -/
theorem readAll_choice {c : Choice} (fits : c.Fits o) (new : c.key ∉ ks ∨ c.key = .flag .verbose) :
    Reading.readAll false (o.partly ks) (c.text :: rest) =
      Reading.readAll false (o.partly (c.key :: ks)) rest := by
  cases c with
  | value key text =>
      rw [Choice.text_value, Reading.readAll_long (by simp), Reading.long_value fits.1,
        String.ofList_toList]
      show ((o.partly ks).store key text >>= _) = _
      rw [store_partly (new.resolve_right (by simp [Choice.key])) fits.2]
      rfl
  | flag f =>
      have raised := raise_partly (new.imp_right Key.flag.inj) fits
      by_cases verbose : f = .verbose
      · subst verbose
        rw [show (Choice.flag .verbose).text = String.ofList ['-', 'v'] from rfl,
          Reading.readAll_letters (by decide), Reading.letters_verbose, raised]
        rfl
      · have some_ : (Key.flag f).name.toList ≠ [] := by cases f <;> decide
        rw [Choice.text_flag verbose, Reading.readAll_long some_, Reading.long_flag, raised]
        rfl

theorem readAll_choices {cs : List Choice} (fits : ∀ c ∈ cs, c.Fits o)
    (new : ∀ k, k ≠ .flag .verbose → (cs.map Choice.key ++ ks).count k ≤ 1) :
    Reading.readAll false (o.partly ks) (cs.map Choice.text ++ rest) =
      Reading.readAll false (o.partly ((cs.map Choice.key).reverse ++ ks)) rest := by
  induction cs generalizing ks with
  | nil => rfl
  | cons c cs ih =>
      obtain ⟨fit, fits⟩ := List.forall_mem_cons.1 fits
      have first : c.key ∉ ks ∨ c.key = .flag .verbose := by
        by_cases verbose : c.key = .flag .verbose
        · exact .inr verbose
        · refine .inl fun there => ?_
          have twice := new c.key verbose
          have before := List.count_pos_iff.2 there
          simp at twice
          omega
      rw [List.map_cons, List.cons_append, readAll_choice fit first, ih fits fun k other => ?_]
      · simp
      · have once := new k other
        simp only [List.map_cons, List.cons_append, List.count_append, List.count_cons] at once ⊢
        omega

end Options

/-! ## All choices -/

/-- A number is read as it is written. -/
theorem secondsOf?_toString {n : Nat} (bounds : 1 ≤ n ∧ n < UInt64.size) :
    secondsOf? (toString n) = some n := by
  have digits : (toString n).toList = Nat.toDigits 10 n := Nat.toList_repr
  have plain : ∀ c ∈ Nat.toDigits 10 n, c.isDigit = true := fun c =>
    Nat.isDigit_of_mem_toDigits (by decide) (by decide)
  have some_ : Nat.toDigits 10 n ≠ [] := Nat.toDigits_ne_nil
  have value : Nat.ofDigitChars 10 (Nat.toDigits 10 n) 0 = n := Nat.ofDigitChars_ten_toDigits
  rw [Nat.ofDigitChars_eq_foldl] at value
  unfold secondsOf?
  rw [digits]
  generalize Nat.toDigits 10 n = ds at *
  split
  · exact absurd (plain '+' List.mem_cons_self) (by decide)
  · rw [if_pos ⟨some_, List.all_eq_true.2 plain⟩, value, if_pos bounds]

/-- A list that is in another order than the images is made of images in another order. -/
theorem exists_map_of_perm {α β : Type} {f : α → β} {l : List β} {images : List α}
    (h : l.Perm (images.map f)) : ∃ others : List α, l = others.map f ∧ others.Perm images := by
  generalize same : images.map f = l' at h
  induction h generalizing images with
  | nil => exact ⟨images, same.symm, .refl _⟩
  | cons b _ ih =>
      obtain ⟨a, rest, rfl, rfl, split⟩ := List.map_eq_cons_iff.1 same
      obtain ⟨others, rfl, order⟩ := ih split
      exact ⟨a :: others, rfl, order.cons a⟩
  | swap b₁ b₂ l =>
      obtain ⟨a₁, rest, rfl, rfl, split⟩ := List.map_eq_cons_iff.1 same
      obtain ⟨a₂, rest, rfl, rfl, rfl⟩ := List.map_eq_cons_iff.1 split
      exact ⟨a₂ :: a₁ :: rest, rfl, .swap ..⟩
  | trans _ _ first second =>
      obtain ⟨others, rfl, order⟩ := second same
      obtain ⟨others', rfl, order'⟩ := first rfl
      exact ⟨others', rfl, order'.trans order⟩

namespace Options

variable {o : Options} {k : Key} {c : Choice}

theorem fits_of_mem_choices (bounds : o.InBounds) (there : c ∈ o.choices) : c.Fits o := by
  obtain ⟨k, _, under⟩ := List.mem_flatMap.1 there
  cases k with
  | option key =>
      cases key with
      | sourceArgument => simp [choicesUnder] at under
      | source | workingDir =>
          obtain ⟨text, chosen, rfl⟩ : ∃ text, _ = some text ∧
            _ = c := by simpa [choicesUnder] using under
          exact ⟨by decide, by rw [Reading.setValue, ← chosen]⟩
      | archiver =>
          obtain ⟨_, rfl⟩ : _ ∧ c = _ := by simpa [choicesUnder] using under
          refine ⟨by decide, ?_⟩
          have named : ArchiverKind.ofFlagName? o.archiver.flagName = some o.archiver := by
            cases o.archiver <;> decide
          simp [Reading.setValue, named]
      | archiverTimeout =>
          obtain ⟨n, chosen, rfl⟩ : ∃ n, _ = some n ∧ _ = c := by simpa [choicesUnder] using under
          have read := secondsOf?_toString (bounds.1 n chosen)
          refine ⟨by decide, ?_⟩
          show Reading.setValue o .archiverTimeout (toString n) = _
          simp only [Reading.setValue, read]
          rw [← chosen]
      | outDir | stagingDir | gameVersion | archiveExtension =>
          obtain ⟨_, rfl⟩ : _ ∧ c = _ := by simpa [choicesUnder] using under
          exact ⟨by decide, rfl⟩
  | flag f =>
      cases f with
      | verbose =>
          obtain ⟨_, rfl⟩ : _ ∧ c = _ := by simpa [choicesUnder] using under
          trivial
      | help | version => simp [choicesUnder] at under
      | dryRun | quiet | json =>
          obtain ⟨raised, rfl⟩ : _ ∧ c = _ := by simpa [choicesUnder] using under
          exact raised

/-- The argument that stands by itself, behind two dashes. -/
def renderSource (o : Options) : List String :=
  match o.sourceArgument with
  | some source => ["--", source]
  | none => []

/-- The keys that have come when the source root has, too. -/
def keysAfter (o : Options) (ks : List Key) : List Key :=
  match o.sourceArgument with
  | some _ => .option .sourceArgument :: ks
  | none => ks

theorem readAll_renderSource {ks : List Key} (new : .option .sourceArgument ∉ ks) :
    ∃ seen, Reading.readAll false (o.partly ks) o.renderSource =
      .ok (o.partly (o.keysAfter ks) seen) := by
  unfold renderSource keysAfter
  cases chosen : o.sourceArgument with
  | none => exact ⟨false, rfl⟩
  | some source =>
      have fits : Reading.setValue o .sourceArgument source = .ok o := by
        rw [Reading.setValue, ← chosen]
      refine ⟨true, ?_⟩
      show (o.partly ks true).store .sourceArgument source = _
      exact store_partly new fits

theorem mem_keysAfter_iff (ks : List Key) (counts : ∀ k, ks.count k = (o.choicesUnder k).length) :
    k ∈ o.keysAfter ks ↔ o.Makes k := by
  have under : k ∈ ks ↔ o.Makes k ∧ k ≠ .option .sourceArgument := by
    rw [← mem_choicesUnder_iff, ← List.count_pos_iff, counts, List.length_pos_iff]
  unfold keysAfter
  split
  · rename_i source chosen
    rw [List.mem_cons, under]
    by_cases same : k = .option .sourceArgument
    · simp [same, Makes, chosen]
    · simp [same]
  · rename_i chosen
    rw [under]
    by_cases same : k = .option .sourceArgument
    · simp [same, Makes, chosen]
    · simp [same]

theorem count_keysAfter (ks : List Key) :
    (o.keysAfter ks).count (.flag .verbose) = ks.count (.flag .verbose) := by
  unfold keysAfter
  split <;> simp

/-- The keys of consistent options do not exclude each other. -/
theorem hasConflict_partly {ks : List Key} {seen : Bool} (consistent : o.Consistent)
    (given : ∀ k, k ∈ ks ↔ o.Makes k) : (o.partly ks seen).hasConflict = false := by
  obtain ⟨sources, reports, words, _⟩ := consistent
  have apart : ∀ {a b : Key}, ¬ (o.Makes a ∧ o.Makes b) →
      (ks.contains a && ks.contains b) = false := by
    intro a b exclude
    simpa [← given] using exclude
  simp only [Reading.hasConflict, partly, Bool.or_eq_false_iff]
  refine ⟨⟨apart ?_, apart reports⟩, apart words⟩
  rintro ⟨first, second⟩
  exact sources ⟨Option.isSome_iff_ne_none.2 first, Option.isSome_iff_ne_none.2 second⟩

/-- Arguments that make the choices of consistent options are read as these options, in whatever
order they come. -/
theorem ofArgs_choices {cs : List Choice} (consistent : o.Consistent) (order : cs.Perm o.choices) :
    Options.ofArgs (cs.map Choice.text ++ o.renderSource) = .ok o := by
  have bounds : o.InBounds := consistent.2.2.2
  have counts : ∀ k, (cs.map Choice.key).count k = (o.choicesUnder k).length := fun k => by
    rw [(order.map Choice.key).count_eq, count_choices]
  have counts' : ∀ k, (cs.map Choice.key).reverse.count k = (o.choicesUnder k).length := fun k => by
    rw [List.count_reverse, counts]
  have given : ∀ k, k ∈ o.keysAfter (cs.map Choice.key).reverse ↔
    o.Makes k := fun k => mem_keysAfter_iff _ counts'
  -- Before anything has come, there are the defaults.
  have start : ({} : Reading) = o.partly [] := by simp [partly, restrict]
  have read : Reading.readAll false (o.partly []) (cs.map Choice.text ++ o.renderSource) = _ :=
    readAll_choices (fun c there => fits_of_mem_choices bounds (order.mem_iff.1 there))
    (fun k other => by simpa [counts] using length_choicesUnder_le o other)
  rw [List.append_nil] at read
  have unread : .option .sourceArgument ∉ (cs.map Choice.key).reverse := by
    rw [← List.count_eq_zero, counts']
    rfl
  obtain ⟨seen, last⟩ := readAll_renderSource (o := o) unread
  have whole : o.restrict (o.keysAfter (cs.map Choice.key).reverse) = o := by
    refine restrict_eq (fun k makes => (given k).2 makes) ?_ bounds.2
    rw [count_keysAfter, counts']
    simp [choicesUnder]
  unfold Options.ofArgs
  rw [start, read, last]
  show (if (o.partly _ seen).hasConflict then _ else _) = _
  rw [hasConflict_partly consistent given]
  exact congrArg Except.ok whole

end Options

/-- The options that can be read are those that are consistent. Each of them is read back from what
is rendered, in whatever order the arguments before the source root come. -/
theorem ofArgs_render_iff :
    (∀ args o, Options.ofArgs args = .ok o → o.Consistent) ∧
      (∀ o : Options, o.Consistent → ∀ choices : List String, choices.Perm o.renderChoices →
        Options.ofArgs (choices ++ o.renderSource) = .ok o) ∧
      ∀ o : Options, Options.ofArgs o.render = .ok o ↔ o.Consistent := by
  have back : ∀ o : Options, o.Consistent → ∀ choices : List String, choices.Perm o.renderChoices →
      Options.ofArgs (choices ++ o.renderSource) = .ok o := by
    intro o consistent choices order
    rw [Options.renderChoices_eq] at order
    obtain ⟨cs, rfl, order'⟩ := exists_map_of_perm order
    exact Options.ofArgs_choices consistent order'
  exact ⟨fun args o => Options.consistent_of_ofArgs, back, fun o =>
    ⟨Options.consistent_of_ofArgs, fun consistent => back o consistent _ (.refl _)⟩⟩

/-- Values that look like flags or are empty, the longest timeout, and a source root that looks
like an option. -/
def oddOptions : Options :=
  { sourceArgument := some "--source=x", outDir := "--quiet", gameVersion := "", archiver := .zip,
    archiverTimeout := some 18446744073709551615, workingDir := some "-", verbosity :=
      2, json := true }

theorem ofArgs_render_iff_odd :
    oddOptions.Consistent ∧
      Options.ofArgs ["-v", "--json", "--working-dir=-", "--game-version=", "--archiver=zip", "-v",
        "--archiver-timeout=18446744073709551615", "--out-dir=--quiet", "--",
        "--source=x"] = .ok oddOptions := by
  have consistent : oddOptions.Consistent := by
    refine ⟨by decide, by decide, by decide, ?_, by decide⟩
    rintro _ ⟨⟩
    decide
  exact ⟨consistent, ofArgs_render_iff.2.1 oddOptions consistent
    ["-v", "--json", "--working-dir=-", "--game-version=", "--archiver=zip", "-v",
      "--archiver-timeout=18446744073709551615", "--out-dir=--quiet"] (by decide)⟩

end ClassPack
