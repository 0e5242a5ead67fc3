import ClassPack.Artifact
import ClassPack.Proofs.Accepted

/-!
# Selecting — what the globs of the two families match, component by component

* `Glob.run_literals_iff`, `Glob.run_star_iff`, `Glob.run_anywhere_last` and
  `Glob.run_anywhere_cons` — one lemma for each part of a glob `**/*.ext`. A failure without hope
  ends the search; by then the text has no slash left, so nothing is missed
  (`short_of_run_literals`, `slashless_of_run_star`);
* `Place.EndsIn` and `Place.GoesThrough` — what a path's last name ends in, and which directory
  it goes through;
* `Glob.isMatch_anywhere` and `Glob.isMatch_within` — on a path without hidden names, these are what
  the globs `**/*.ext` and `dir/**/*.ext` look for.
-/

namespace ClassPack
namespace Glob

variable {ext dir text : List Char} {tokens : List Token} {fresh : Bool}

/-! ## Literal text -/

theorem run_literals_iff : run (ext.map .char) text fresh = .matched ↔ text = ext := by
  induction ext generalizing text fresh with
  | nil => simp [run]
  | cons d ext ih =>
      cases text with
      | nil => simp [run]
      | cons c text =>
          rw [List.map_cons, run_char_cons]
          by_cases same : c = d
          · simp [same, ih]
          · simp [same]

/-- Without hope, the text has been used up. -/
theorem short_of_run_literals (slashless : '/' ∉ ext)
    (h : run (ext.map .char) text fresh = .hopeless) : text.length < ext.length ∧ '/' ∉ text := by
  induction ext generalizing text fresh with
  | nil =>
      simp only [List.map_nil, run] at h
      split at h <;> cases h
  | cons d ext ih =>
      cases text with
      | nil => simp
      | cons c text =>
          rw [List.map_cons, run_char_cons] at h
          by_cases same : c = d
          · subst same
            obtain ⟨notSlash, slashless⟩ : '/' ≠ c ∧ '/' ∉ ext := by simpa using slashless
            obtain ⟨short, rest⟩ := ih slashless (by simpa using h)
            exact ⟨by simpa using short, by simp [notSlash, rest]⟩
          · simp [same] at h

/-- A literal directory is matched as it is, and then a component starts. -/
theorem run_within_iff :
    run (dir.map .char ++ .char '/' :: tokens) text fresh = .matched ↔
      ∃ tail, text = dir ++ '/' :: tail ∧ run tokens tail true = .matched := by
  induction dir generalizing text fresh with
  | nil =>
      cases text with
      | nil => simp [run]
      | cons c text =>
          rw [List.map_nil, List.nil_append, run_char_cons]
          by_cases same : c = '/'
          · simp [same]
          · simp [same]
  | cons d dir ih =>
      cases text with
      | nil => simp [run]
      | cons c text =>
          rw [List.map_cons, List.cons_append, run_char_cons]
          by_cases same : c = d
          · simp [same, ih]
          · simp [same]

/-! ## A star inside one component -/

/-- The globs `*.ext`. -/
def star (ext : List Char) : List Token := .some :: ext.map .char

/-- A star stops at a slash and at the front of a hidden component. -/
theorem run_star_cons (c : Char) :
    run (star ext) (c :: text) fresh =
      match run (ext.map .char) (c :: text) fresh with
      | .retry => if fresh = true ∧ c = '.' ∨ c = '/' then .retry else run (star ext) text false
      | verdict => verdict := by
  rw [star, run]
  cases run (ext.map .char) (c :: text) fresh with
  | matched => rfl
  | hopeless => rfl
  | retry =>
      dsimp only
      rw [sweep]
      by_cases hidden : fresh = true ∧ c = '.'
      · simp [hidden]
      · by_cases slashed : c = '/'
        · simp [slashed]
        · simp only [slashed, or_false, if_neg hidden]
          have behind : (c == '/') = false := by simpa using slashed
          rw [run, behind]
          have go : ¬ ((fresh && c == '.') = true) := by simpa using hidden
          rw [if_neg go]
          cases run (ext.map .char) text false <;> rfl

theorem run_star_iff (slashless : '/' ∉ ext) (some_ : ext ≠ []) :
    run (star ext) text fresh = .matched ↔
      ∃ stem, text = stem ++ ext ∧ '/' ∉ stem ∧ (fresh = true → stem.head? ≠ some '.') := by
  induction text generalizing fresh with
  | nil =>
      have end_ : run (ext.map .char) [] fresh ≠ .matched := fun h =>
        some_ (run_literals_iff.1 h).symm
      have nothing : run (star ext) [] fresh ≠ .matched := by
        rw [star, run]
        split
        · simpa [sweep] using end_
        · exact end_
      simp [nothing, some_]
  | cons c text ih =>
      rw [run_star_cons]
      cases here : run (ext.map .char) (c :: text) fresh with
      | matched => simpa using ⟨[], by simpa using run_literals_iff.1 here⟩
      | hopeless =>
          have short := (short_of_run_literals slashless here).1
          simp only [reduceCtorEq, false_iff]
          rintro ⟨stem, same, _⟩
          have := congrArg List.length same
          simp only [List.length_append] at this
          omega
      | retry =>
          -- The extension is not there yet, so the star takes one character.
          have other : c :: text ≠ ext := fun same => by simp [run_literals_iff.2 same] at here
          dsimp only
          split
          · rename_i stopped
            simp only [reduceCtorEq, false_iff]
            rintro ⟨stem, same, plain, shown⟩
            cases stem with
            | nil => exact other same
            | cons c' stem =>
                obtain ⟨rfl, _⟩ := List.cons.inj same
                rcases stopped with ⟨start, rfl⟩ | rfl
                · simp [start] at shown
                · simp at plain
          · rename_i goes
            rw [ih]
            constructor
            · rintro ⟨stem, rfl, plain, _⟩
              refine ⟨c :: stem, rfl, ?_, ?_⟩
              · simpa [plain] using fun same : '/' = c => goes (.inr same.symm)
              · simpa using fun start same => goes (.inl ⟨start, same⟩)
            · rintro ⟨stem, same, plain, _⟩
              cases stem with
              | nil => exact absurd same other
              | cons c' stem =>
                  obtain ⟨rfl, rfl⟩ := List.cons.inj same
                  exact ⟨stem, rfl, fun there => plain (List.mem_cons_of_mem _ there), by simp⟩

/-- Without hope there is no slash left. -/
theorem slashless_of_run_star (slashless : '/' ∉ ext) (h : run (star ext) text fresh = .hopeless) :
    '/' ∉ text := by
  induction text generalizing fresh with
  | nil => simp
  | cons c text ih =>
      rw [run_star_cons] at h
      cases here : run (ext.map .char) (c :: text) fresh with
      | matched => simp [here] at h
      | hopeless => exact (short_of_run_literals slashless here).2
      | retry =>
          simp only [here] at h
          split at h
          · cases h
          · rename_i goes
            simpa [ih h] using fun same : '/' = c => goes (.inr same.symm)

/-! ## Two stars -/

/-- The globs `**/*.ext`. -/
def anywhere (ext : List Char) : List Token := .deep :: star ext

/-- Two stars skip a component, unless it is hidden. -/
theorem sweep_deep_component {go : List Char → Bool → Verdict} (plain : '/' ∉ dir) :
    sweep true go (dir ++ '/' :: text) fresh =
      if fresh = true ∧ dir.head? = some '.' then .retry
      else
        match go text true with
        | .retry => sweep true go text true
        | verdict => verdict := by
  induction dir generalizing fresh with
  | nil =>
      have free : ¬ (fresh = true ∧ ([] : List Char).head? = some '.') := by simp
      rw [if_neg free, List.nil_append, sweep]
      cases reached : go text true <;>
        simp only [reached, beq_self_eq_true, Bool.not_true, Bool.and_false, Bool.false_and,
          Bool.false_eq_true, if_false, show ('/' == '.') = false from rfl]
  | cons c dir ih =>
      obtain ⟨notSlash, plain⟩ : '/' ≠ c ∧ '/' ∉ dir := by simpa using plain
      rw [List.cons_append, sweep]
      by_cases hidden : fresh = true ∧ c = '.'
      · simp [hidden]
      · simp [hidden, Ne.symm notSlash, ih plain]

/-- In the last component two stars take all there is. -/
theorem sweep_deep_last {go : List Char → Bool → Verdict} (plain : '/' ∉ text)
    (stuck : ∀ fresh, go [] fresh ≠ .matched) : sweep true go text fresh ≠ .matched := by
  induction text generalizing fresh with
  | nil => exact stuck fresh
  | cons c text ih =>
      obtain ⟨notSlash, plain⟩ : '/' ≠ c ∧ '/' ∉ text := by simpa using plain
      rw [sweep]
      by_cases hidden : fresh = true ∧ c = '.'
      · simp [hidden]
      · simpa [hidden, Ne.symm notSlash] using ih plain

theorem run_anywhere_last (slashless : '/' ∉ ext) (some_ : ext ≠ []) (plain : '/' ∉ text) :
    run (anywhere ext) text true = .matched ↔ ∃ stem, text = stem ++ ext ∧
    stem.head? ≠ some '.' := by
  have within : (∃ stem, text = stem ++ ext ∧ '/' ∉ stem ∧ (true = true → stem.head? ≠ some '.')) ↔
      ∃ stem, text = stem ++ ext ∧ stem.head? ≠ some '.' := by
    constructor
    · rintro ⟨stem, same, _, shown⟩
      exact ⟨stem, same, shown rfl⟩
    · rintro ⟨stem, rfl, shown⟩
      exact ⟨stem, rfl, fun there => plain (List.mem_append_left _ there), fun _ => shown⟩
  rw [← within, ← run_star_iff slashless some_, anywhere, run]
  have stuck : ∀ fresh, run (star ext) [] fresh ≠ .matched := fun fresh h => by
    obtain ⟨stem, same, _⟩ := (run_star_iff slashless some_).1 h
    simp [some_] at same
  cases here : run (star ext) text true with
  | matched => simp
  | hopeless => simp
  | retry => simpa using sweep_deep_last plain stuck

theorem run_anywhere_cons (slashless : '/' ∉ ext) (some_ : ext ≠ []) (plain : '/' ∉ dir) :
    run (anywhere ext) (dir ++ '/' :: text) true = .matched ↔
      dir.head? ≠ some '.' ∧ run (anywhere ext) text true = .matched := by
  -- The star alone does not get over the slash, but does not lose hope either.
  have waits : run (star ext) (dir ++ '/' :: text) true = .retry := by
    cases here : run (star ext) (dir ++ '/' :: text) true with
    | retry => rfl
    | hopeless => simpa using slashless_of_run_star slashless here
    | matched =>
        obtain ⟨stem, same, plain', _⟩ := (run_star_iff slashless some_).1 here
        have slashed : '/' ∈ stem ++ ext := same ▸ by simp
        rcases List.mem_append.1 slashed with there | there
        · exact absurd there plain'
        · exact absurd there slashless
  rw [anywhere, run, waits]
  dsimp only
  rw [sweep_deep_component plain]
  by_cases hidden : dir.head? = some '.'
  · simp [hidden]
  · cases reached : run (star ext) text true <;> simp [hidden, run, reached]

end Glob

/-! ## Texts and names -/

/-- There is only one way to split bytes at their first slash. -/
theorem Path.split_unique {a b front back : Bytes} (h : a ++ slash :: b = front ++ slash :: back)
    (plain : slash ∉ a) (plain' : slash ∉ front) : a = front ∧ b = back := by
  induction a generalizing front with
  | nil =>
      cases front with
      | nil => simpa using h
      | cons c front => simp [← (List.cons.inj h).1] at plain'
  | cons c a ih =>
      cases front with
      | nil => simp [(List.cons.inj h).1] at plain
      | cons c' front =>
          obtain ⟨rfl, later⟩ := List.cons.inj h
          obtain ⟨rfl, rfl⟩ := ih later (fun there => plain (List.mem_cons_of_mem _ there))
            fun there => plain' (List.mem_cons_of_mem _ there)
          exact ⟨rfl, rfl⟩

namespace Utf8

variable {s : String} {front back : Bytes}

theorem encode_of_toList {a b : String} (h : s.toList = a.toList ++ '/' :: b.toList) :
    encode s = encode a ++ slash :: encode b := by
  have same : s = a ++ "/" ++ b := String.toList_injective (by simp [h])
  rw [same, encode_append, encode_append, show encode "/" = [slash] by decide]
  simp

theorem slash_not_mem_toList (h : slash ∉ encode s) : '/' ∉ s.toList := by
  intro there
  obtain ⟨front, back, split, _⟩ := List.eq_append_cons_of_mem there
  have spelled :=
    encode_of_toList (a := String.ofList front) (b := String.ofList back) (by simpa using split)
  exact h (spelled ▸ by simp)

/-- Where its bytes have a slash first, a text has one. -/
theorem split_at_slash (h : encode s = front ++ slash :: back) (plain : slash ∉ front) :
    ∃ a b : String, s.toList = a.toList ++ '/' :: b.toList ∧ encode a = front ∧
      encode b = back := by
  have slashed : '/' ∈ s.toList := Classical.byContradiction fun none_ =>
    slash_not_mem_encode none_ (h ▸ by simp)
  obtain ⟨cs, ds, split, first⟩ := List.eq_append_cons_of_mem slashed
  have split : s.toList = (String.ofList cs).toList ++ '/' :: (String.ofList ds).toList := by
    simpa using split
  have plain' : slash ∉ encode (String.ofList cs) := slash_not_mem_encode (by simpa using first)
  obtain ⟨first, rest⟩ := Path.split_unique ((encode_of_toList split).symm.trans h) plain' plain
  exact ⟨_, _, split, first, rest⟩

theorem head?_encode (h : s.toList.head? = some '.') : (encode s).head? = some dot := by
  obtain ⟨rest, same⟩ : ∃ rest, s.toList = '.' :: rest := by
    cases cs : s.toList with
    | nil => simp [cs] at h
    | cons c rest =>
        obtain rfl : c = '.' := by simpa [cs] using h
        exact ⟨rest, rfl⟩
  have same : s = "." ++ String.ofList rest := String.toList_injective (by simp [same])
  rw [same, encode_append, show encode "." = [dot] by decide]
  rfl

end Utf8

namespace Place

variable {names : Place} {text : String}

theorem relativePath_cons {n : Name} (inner : names ≠ []) :
    relativePath (n :: names) = n.bytes ++ slash :: names.relativePath := by
  obtain ⟨n', more, rfl⟩ := List.exists_cons_of_ne_nil inner
  rfl

/-- A text that spells several names is split as they are. -/
theorem split_text {n : Name} (inner : names ≠ [])
    (spelled : Utf8.encode text = relativePath (n :: names)) :
    ∃ a b : String, text.toList = a.toList ++ '/' :: b.toList ∧ Utf8.encode a = n.bytes ∧
      Utf8.encode b = names.relativePath :=
  Utf8.split_at_slash (spelled.trans (relativePath_cons inner)) n.valid.2.2.2.1

/-- If a path is a text, so are its names. -/
theorem text?_of_encode (spelled : Utf8.encode text = names.relativePath) :
    ∀ n ∈ names, n.text?.isSome = true := by
  induction names generalizing text with
  | nil => simp
  | cons n names ih =>
      have here : ∀ s : String, Utf8.encode s = n.bytes → n.text?.isSome = true := fun s same => by
        simp [Name.text?, ← same]
      by_cases inner : names = []
      · subst inner
        simpa using here text spelled
      · obtain ⟨a, b, _, first, rest⟩ := split_text inner spelled
        exact List.forall_mem_cons.2 ⟨here a first, ih rest⟩

/-- The last of the names ends in a text. -/
def EndsIn (names : Place) (ext : String) : Prop :=
  ∃ stem n, names.getLast? = some n ∧ n.bytes = Utf8.encode (stem ++ ext)

/-- The first of the names is a certain one, and it is not the last. -/
def GoesThrough (names : Place) (dir : String) : Prop :=
  ∃ n rest, names = n :: rest ∧ rest ≠ [] ∧ n.bytes = Utf8.encode dir

theorem endsIn_cons {n : Name} {ext : String} (inner : names ≠ []) :
    EndsIn (n :: names) ext ↔ EndsIn names ext := by
  obtain ⟨n', more, rfl⟩ := List.exists_cons_of_ne_nil inner
  simp [EndsIn, List.getLast?_cons_cons]

end Place

/-! ## What the globs look for -/

namespace Glob

variable {ext dir text : String} {names : Place}

/-- On a path without hidden names, `**/*.ext` looks at the end of the last name. -/
theorem isMatch_anywhere (slashless : '/' ∉ ext.toList) (some_ : ext.toList ≠ [])
    (inner : names ≠ []) (spelled : Utf8.encode text = names.relativePath)
    (shown : ∀ n ∈ names, n.bytes.head? ≠ some dot) : isMatch (anywhere ext.toList) text = true ↔
    names.EndsIn ext := by
  unfold isMatch
  rw [beq_iff_eq]
  induction names generalizing text with
  | nil => exact absurd rfl inner
  | cons n names ih =>
      obtain ⟨here, later⟩ := List.forall_mem_cons.1 shown
      by_cases last : names = []
      · subst last
        have spelled : Utf8.encode text = n.bytes := spelled
        rw [run_anywhere_last slashless some_
          (Utf8.slash_not_mem_toList (spelled ▸ n.valid.2.2.2.1))]
        constructor
        · rintro ⟨stem, same, _⟩
          have same : text = String.ofList stem ++ ext := String.toList_injective (by simp [same])
          exact ⟨String.ofList stem, n, rfl, by rw [← spelled, same]⟩
        · rintro ⟨stem, n', only, ends⟩
          obtain rfl : n = n' := by simpa using only
          obtain rfl : text = stem ++ ext := Utf8.encode_injective (spelled.trans ends)
          refine ⟨stem.toList, by simp, fun hidden => here ?_⟩
          rw [← spelled]
          refine Utf8.head?_encode ?_
          rw [String.toList_append, List.head?_append, hidden]
          rfl
      · obtain ⟨a, b, split, first, rest⟩ := Place.split_text last spelled
        have plain : '/' ∉ a.toList := Utf8.slash_not_mem_toList (first ▸ n.valid.2.2.2.1)
        rw [split, run_anywhere_cons slashless some_ plain, ih last rest later,
          Place.endsIn_cons last]
        exact and_iff_right fun hidden => here (first ▸ Utf8.head?_encode hidden)

/-- On a path without hidden names, `dir/**/*.ext` looks at the first name as well. -/
theorem isMatch_within (slashless : '/' ∉ ext.toList) (some_ : ext.toList ≠ []) (inner : names ≠ [])
    (spelled : Utf8.encode text = names.relativePath)
    (shown : ∀ n ∈ names, n.bytes.head? ≠ some dot) (plain : '/' ∉ dir.toList) :
    isMatch (dir.toList.map .char ++ .char '/' :: anywhere ext.toList) text = true ↔
      names.GoesThrough dir ∧ names.EndsIn ext := by
  have tail : ∀ {rest : Place} {b : String}, rest ≠ [] → (∀ n ∈ rest, n.bytes.head? ≠ some dot) →
      Utf8.encode b = rest.relativePath →
      (run (anywhere ext.toList) b.toList true = .matched ↔
        rest.EndsIn ext) := fun inner shown spelled => by
    simpa [isMatch] using isMatch_anywhere slashless some_ inner spelled shown
  obtain ⟨n, rest, rfl⟩ := List.exists_cons_of_ne_nil inner
  obtain ⟨_, later⟩ := List.forall_mem_cons.1 shown
  simp only [isMatch, beq_iff_eq, run_within_iff]
  constructor
  · rintro ⟨cs, split, matched⟩
    have bytes := Utf8.encode_of_toList (a := dir) (b := String.ofList cs) (by simpa using split)
    have slashed : rest ≠ [] := by
      rintro rfl
      have single : Utf8.encode text = n.bytes := spelled
      exact n.valid.2.2.2.1 (single ▸ bytes ▸ by simp)
    obtain ⟨first, more⟩ :=
      Path.split_unique (bytes.symm.trans (spelled.trans (Place.relativePath_cons slashed)))
      (Utf8.slash_not_mem_encode plain) n.valid.2.2.2.1
    refine ⟨⟨n, rest, rfl, slashed, first.symm⟩, (Place.endsIn_cons slashed).2 ?_⟩
    exact (tail slashed later more).1 (by simpa using matched)
  · rintro ⟨⟨n', rest', same, slashed, first⟩, ends⟩
    obtain ⟨rfl, rfl⟩ := List.cons.inj same
    obtain ⟨a, b, split, bytes, more⟩ := Place.split_text slashed spelled
    obtain rfl : a = dir := Utf8.encode_injective (bytes.trans first)
    exact ⟨b.toList, split, (tail slashed later more).2 ((Place.endsIn_cons slashed).1 ends)⟩

end Glob

/-! ## The two families -/

namespace ArtifactPattern

theorem compile_classFiles : classFiles.compile = .ok ⟨Glob.anywhere ".class".toList, []⟩ := by
  decide +kernel

theorem compile_prebuiltArchives :
    prebuiltArchives.compile =
      .ok ⟨Glob.anywhere ".jar".toList,
        ["jre", "jre64"].map fun dir =>
          dir.toList.map .char ++ .char '/' :: Glob.anywhere ".jar".toList⟩ := by
  decide +kernel

end ArtifactPattern
end ClassPack
