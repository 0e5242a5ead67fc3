import ClassPack.Proofs.Json.Grammar
import ClassPack.Proofs.Text.Stopping

/-!
# Scalars — readers of numbers and of quoted texts

* `Reader`, which takes what it reads off the front of characters, and `Reader.Obeys`: it reads the
  texts of a grammar and nothing else, if what follows ends them;
* `readNumber` and `readQuoted` with all that they are made of, each with the lemma that it
  obeys its grammar.
-/

namespace ClassPack
namespace Datum

variable {α : Type} {cs ds rest t : List Char}

/-- Takes what it reads off the front of characters. -/
abbrev Reader (α : Type) := List Char → Option (α × List Char)

/-- What the reader takes is a text of a grammar. -/
def Reader.Sound (r : Reader α) (Grammar : List Char → α → Prop) : Prop :=
  ∀ {cs a rest}, r cs = some (a, rest) → ∃ t, cs = t ++ rest ∧ Grammar t a

/-- The reader takes the texts of a grammar off the front of characters, where what follows ends
them, and it takes nothing else. -/
structure Reader.Obeys (r : Reader α) (Grammar : List Char → α → Prop) (Ends : List Char → Prop) :
    Prop where
  takes : ∀ {t a rest}, Grammar t a → Ends rest → r (t ++ rest) = some (a, rest)
  sound : r.Sound Grammar

/-! ## Numbers -/

/-- Digits start with no other character. -/
theorem IsDigits.append_ne_cons {c : Char} (digits : IsDigits ds) (other : c.isDigit = false) :
    ds ++ rest ≠ c :: t := by
  intro same
  cases ds with
  | nil => exact digits.1 rfl
  | cons d ds =>
      cases same
      exact absurd (digits.2 c List.mem_cons_self) (by simp [other])

/-- Reads digits, as many as there are. -/
def readDigits : Reader (List Char) := fun cs =>
  if cs.takeWhile Char.isDigit = [] then none
  else some (cs.takeWhile Char.isDigit, cs.dropWhile Char.isDigit)

theorem readDigits_obeys :
    Reader.Obeys readDigits (fun t ds => t = ds ∧ IsDigits ds) (Stops Char.isDigit) where
  takes := by
    rintro t ds rest ⟨rfl, digits⟩ stops
    rw [readDigits, takeWhile_append_of_stops digits.2 stops,
      dropWhile_append_of_stops digits.2 stops, if_neg digits.1]
  sound := by
    intro cs ds rest h
    unfold readDigits at h
    split at h
    · cases h
    · rename_i some_
      cases h
      exact ⟨_, List.takeWhile_append_dropWhile.symm, rfl,
        some_, fun d there => List.mem_takeWhile_imp there⟩

/-- Reads the digits before the point; a zero at the front stands alone. -/
def readWhole : Reader (List Char)
  | '0' :: rest => some (['0'], rest)
  | cs => readDigits cs

theorem readWhole_obeys :
    Reader.Obeys readWhole (fun t ds => t = ds ∧ IsWhole ds) (Stops Char.isDigit) where
  takes := by
    rintro t ds rest ⟨rfl, digits, rfl | front⟩ stops
    · rfl
    · rw [readWhole]
      · exact readDigits_obeys.takes ⟨rfl, digits⟩ stops
      · intro more zero
        cases t with
        | nil => exact digits.1 rfl
        | cons d t =>
            cases zero
            exact front rfl
  sound := by
    intro cs ds rest h
    unfold readWhole at h
    split at h
    · cases h
      exact ⟨['0'], rfl, rfl, ⟨List.cons_ne_nil _ _, List.forall_mem_singleton.2 rfl⟩, .inl rfl⟩
    · rename_i noZero
      obtain ⟨t, rfl, rfl, digits⟩ := readDigits_obeys.sound h
      refine ⟨t, rfl, rfl, digits, .inr fun zero => ?_⟩
      obtain ⟨more, rfl⟩ := List.head?_eq_some_iff.1 zero
      exact noZero _ rfl

/-- Reads a point and the digits after it, if there is one. -/
def readFraction : Reader (List Char)
  | '.' :: rest => readDigits rest
  | cs => some ([], cs)

theorem readFraction_obeys :
    Reader.Obeys readFraction Fraction fun rest => Stops Char.isDigit rest ∧
    rest.head? ≠ some '.' where
  takes := by
    rintro t ds rest fraction ⟨stops, noPoint⟩
    cases fraction with
    | none =>
        rw [List.nil_append, readFraction]
        rintro more rfl
        exact noPoint rfl
    | point digits => exact readDigits_obeys.takes ⟨rfl, digits⟩ stops
  sound := by
    intro cs ds rest h
    unfold readFraction at h
    split at h
    · obtain ⟨t, rfl, rfl, digits⟩ := readDigits_obeys.sound h
      exact ⟨'.' :: t, rfl, .point digits⟩
    · cases h
      exact ⟨[], rfl, .none⟩

/-- Reads the digits of a power of ten, and its sign. -/
def readPower : Reader Int
  | '+' :: rest => (readDigits rest).map fun (ds, rest) => ((ofDigits ds : Int), rest)
  | '-' :: rest => (readDigits rest).map fun (ds, rest) => (-(ofDigits ds : Int), rest)
  | rest => (readDigits rest).map fun (ds, rest) => ((ofDigits ds : Int), rest)

theorem readPower_obeys : Reader.Obeys readPower Power (Stops Char.isDigit) where
  takes := by
    intro t k rest power stops
    cases power with
    | plain digits =>
        have read := readDigits_obeys.takes ⟨rfl, digits⟩ stops
        rw [readPower, read, Option.map_some]
        · exact fun more => digits.append_ne_cons rfl
        · exact fun more => digits.append_ne_cons rfl
    | plus digits =>
        have read := readDigits_obeys.takes ⟨rfl, digits⟩ stops
        simp [readPower, read]
    | minus digits =>
        have read := readDigits_obeys.takes ⟨rfl, digits⟩ stops
        simp [readPower, read]
  sound := by
    intro cs k rest h
    unfold readPower at h
    split at h
    all_goals
      obtain ⟨⟨ds, left⟩, read, here⟩ := Option.map_eq_some_iff.1 h
      obtain ⟨t, rfl, rfl, digits⟩ := readDigits_obeys.sound read
      cases here
    · exact ⟨'+' :: t, rfl, .plus digits⟩
    · exact ⟨'-' :: t, rfl, .minus digits⟩
    · exact ⟨t, rfl, .plain digits⟩

/-- Reads a power of ten behind a number, if there is one. -/
def readExponent : Reader Int
  | c :: rest => if c = 'e' ∨ c = 'E' then readPower rest else some (0, c :: rest)
  | [] => some (0, [])

theorem readExponent_obeys :
    Reader.Obeys readExponent Exponent fun rest =>
      Stops Char.isDigit rest ∧ rest.head? ≠ some 'e' ∧ rest.head? ≠ some 'E' where
  takes := by
    rintro t k rest exponent ⟨stops, noMark, noMark'⟩
    cases exponent with
    | none =>
        cases rest with
        | nil => rfl
        | cons c rest =>
            have other : ¬ (c = 'e' ∨ c = 'E') := by simpa using And.intro noMark noMark'
            rw [List.nil_append, readExponent, if_neg other]
    | marked mark power =>
        rw [List.cons_append, readExponent, if_pos mark]
        exact readPower_obeys.takes power stops
  sound := by
    intro cs k rest h
    unfold readExponent at h
    split at h
    · split at h
      · rename_i mark
        obtain ⟨t, rfl, power⟩ := readPower_obeys.sound h
        exact ⟨_ :: t, rfl, .marked mark power⟩
      · cases h
        exact ⟨[], rfl, .none⟩
    · cases h
      exact ⟨[], rfl, .none⟩

/-- The characters by which a number goes on. -/
def isNumeralChar (c : Char) : Bool := c.isDigit || c = '.' || c = 'e' || c = 'E'

theorem stops_digits (stops : Stops isNumeralChar rest) :
    Stops Char.isDigit rest ∧ rest.head? ≠ some '.' ∧ rest.head? ≠ some 'e' ∧
    rest.head? ≠ some 'E' := by
  cases rest with
  | nil => exact ⟨stops_nil _, by simp⟩
  | cons c rest =>
      have other := stops_cons_iff.1 stops
      simp only [isNumeralChar, Bool.or_eq_false_iff, decide_eq_false_iff_not] at other
      exact ⟨stops_cons_iff.2 other.1.1.1, by simp [other]⟩

theorem Exponent.stops_append {k : Int} (exponent : Exponent t k)
    (stops : Stops isNumeralChar rest) : Stops Char.isDigit (t ++ rest) ∧
    (t ++ rest).head? ≠ some '.' := by
  cases exponent with
  | none => exact ⟨(stops_digits stops).1, (stops_digits stops).2.1⟩
  | marked mark power =>
      rw [List.cons_append, stops_cons_iff]
      rcases mark with rfl | rfl
      · exact ⟨rfl, by simp⟩
      · exact ⟨rfl, by simp⟩

theorem Fraction.stops_append (fraction : Fraction t ds) (stops : Stops Char.isDigit rest) :
    Stops Char.isDigit (t ++ rest) := by
  cases fraction with
  | none => exact stops
  | point digits => exact stops_cons_iff.2 rfl

theorem Unsigned.append_ne_minus {q : Rat} (number : Unsigned t q) {more : List Char} :
    t ++ rest ≠ '-' :: more := by
  obtain ⟨⟨digits, -⟩, -, -⟩ := number
  rw [List.append_assoc]
  exact digits.append_ne_cons rfl

/-- Reads a number that has no sign. -/
def readUnsigned : Reader Rat := fun cs => do
  let (whole, cs) ← readWhole cs
  let (fraction, cs) ← readFraction cs
  let (exponent, rest) ← readExponent cs
  return (decimal whole fraction exponent, rest)

theorem readUnsigned_obeys : Reader.Obeys readUnsigned Unsigned (Stops isNumeralChar) where
  takes := by
    intro t q rest number stops
    obtain @⟨whole, point, fraction, power, exponent, isWhole, isFraction, isExponent⟩ := number
    have afterFraction := isExponent.stops_append stops
    have one := readWhole_obeys.takes ⟨rfl, isWhole⟩ (isFraction.stops_append afterFraction.1)
    have two := readFraction_obeys.takes isFraction afterFraction
    have three :=
      readExponent_obeys.takes isExponent ⟨(stops_digits stops).1, (stops_digits stops).2.2⟩
    simp [readUnsigned, one, two, three]
  sound := by
    intro cs q rest h
    simp only [readUnsigned, Option.bind_eq_bind, Option.bind_eq_some_iff, Prod.exists] at h
    obtain ⟨whole, _, one, fraction, _, two, exponent, _, three, here⟩ := h
    obtain ⟨t, rfl, rfl, isWhole⟩ := readWhole_obeys.sound one
    obtain ⟨point, rfl, isFraction⟩ := readFraction_obeys.sound two
    obtain ⟨power, rfl, isExponent⟩ := readExponent_obeys.sound three
    cases here
    exact ⟨t ++ (point ++ power), by simp, .mk isWhole isFraction isExponent⟩

/-- Reads a number. -/
def readNumber : Reader Rat
  | '-' :: rest => (readUnsigned rest).map fun (q, rest) => (-q, rest)
  | cs => readUnsigned cs

theorem readNumber_obeys : Reader.Obeys readNumber Numeral (Stops isNumeralChar) where
  takes := by
    intro t q rest number stops
    cases number with
    | unsigned number =>
        have read := readUnsigned_obeys.takes number stops
        rw [readNumber, read]
        -- The first character is a digit.
        exact fun more => number.append_ne_minus
    | minus number =>
        have read := readUnsigned_obeys.takes number stops
        simp [readNumber, read]
  sound := by
    intro cs q rest h
    unfold readNumber at h
    split at h
    · obtain ⟨⟨q, left⟩, read, here⟩ := Option.map_eq_some_iff.1 h
      obtain ⟨t, rfl, number⟩ := readUnsigned_obeys.sound read
      cases here
      exact ⟨'-' :: t, rfl, .minus number⟩
    · obtain ⟨t, rfl, number⟩ := readUnsigned_obeys.sound h
      exact ⟨t, rfl, .unsigned number⟩

/-! ## Texts -/

/-- Puts a piece before the pieces that are read. -/
def withPiece (p : Piece) (read : Option (List Piece × List Char)) :
    Option (List Piece × List Char) :=
  read.map fun (ps, rest) => (p :: ps, rest)

theorem withPiece_eq_some_iff {p : Piece} {read : Option (List Piece × List Char)}
    {ps : List Piece} : withPiece p read = some (ps, rest) ↔ ∃ qs, read = some (qs, rest) ∧
    ps = p :: qs := by
  simp only [withPiece, Option.map_eq_some_iff, Prod.exists, Prod.mk.injEq]
  constructor
  · rintro ⟨qs, left, read, rfl, rfl⟩
    exact ⟨qs, read, rfl⟩
  · rintro ⟨qs, read, rfl⟩
    exact ⟨qs, rest, read, rfl, rfl⟩

/-- Reads what stands between the quotes, and the quote behind it. -/
def readBody : Reader (List Piece)
  | '"' :: rest => some ([], rest)
  | '\\' :: 'u' :: a :: b :: c :: d :: rest =>
      (unit? a b c d).bind fun n => withPiece (.unit n) (readBody rest)
  | '\\' :: e :: rest => (letters.lookup e).bind fun c => withPiece (.char c) (readBody rest)
  | c :: rest => if 0x20 ≤ c.toNat ∧ c ≠ '\\' then withPiece (.char c) (readBody rest) else none
  | [] => none

theorem readBody_append {ps : List Piece} (spelled : Body t ps) :
    readBody (t ++ '"' :: rest) = some (ps, rest) := by
  induction spelled with
  | nil => rfl
  | plain printable noQuote noSlash spelled ih =>
      rw [List.cons_append, readBody, if_pos ⟨printable, noSlash⟩, ih]
      · rfl
      · exact noQuote
      · exact fun _ _ _ _ _ slash _ => noSlash slash
      · exact fun _ _ slash _ => noSlash slash
  | letter letter spelled ih =>
      rw [List.cons_append, List.cons_append, readBody, letter, Option.bind_some, ih]
      · rfl
      · -- A code unit has no letter.
        rintro _ _ _ _ _ rfl _
        cases letter
  | unit unit spelled ih =>
      simp only [List.cons_append, readBody, unit, Option.bind_some, ih]
      rfl

theorem body_of_readBody {ps : List Piece} (h : readBody cs = some (ps, rest)) :
    ∃ t, cs = t ++ '"' :: rest ∧ Body t ps := by
  fun_induction readBody cs generalizing ps with
  | case1 left =>
      cases h
      exact ⟨[], rfl, .nil⟩
  | case2 a b c d left ih =>
      obtain ⟨n, unit, h⟩ := Option.bind_eq_some_iff.1 h
      obtain ⟨qs, read, rfl⟩ := withPiece_eq_some_iff.1 h
      obtain ⟨t, rfl, spelled⟩ := ih read
      exact ⟨'\\' :: 'u' :: a :: b :: c :: d :: t, rfl, .unit unit spelled⟩
  | case3 e left notUnit ih =>
      obtain ⟨c, letter, h⟩ := Option.bind_eq_some_iff.1 h
      obtain ⟨qs, read, rfl⟩ := withPiece_eq_some_iff.1 h
      obtain ⟨t, rfl, spelled⟩ := ih read
      exact ⟨'\\' :: e :: t, rfl, .letter letter spelled⟩
  | case4 c left noQuote notUnit notLetter plain ih =>
      obtain ⟨qs, read, rfl⟩ := withPiece_eq_some_iff.1 h
      obtain ⟨t, rfl, spelled⟩ := ih read
      exact ⟨c :: t, rfl, .plain plain.1 noQuote plain.2 spelled⟩
  | case5 c left noQuote notUnit notLetter other => cases h
  | case6 => cases h

/-- Reads a quoted text. -/
def readQuoted : Reader String
  | '"' :: rest => do
      let (ps, rest) ← readBody rest
      let cs ← Piece.text? ps
      return (String.ofList cs, rest)
  | _ => none

theorem readQuoted_obeys : Reader.Obeys readQuoted Quoted fun _ => True where
  takes := by
    rintro t s rest ⟨spelled, text⟩ -
    simp [readQuoted, readBody_append spelled, text]
  sound := by
    intro cs s rest h
    unfold readQuoted at h
    split at h
    · simp only [Option.bind_eq_bind, Option.bind_eq_some_iff, Prod.exists] at h
      obtain ⟨ps, _, read, cs, text, here⟩ := h
      obtain ⟨t, rfl, spelled⟩ := body_of_readBody read
      cases here
      exact ⟨'"' :: (t ++ ['"']), by simp, .mk spelled text⟩
    · cases h

end Datum
end ClassPack
