import ClassPack.Report.Json

/-!
# Grammar — the texts of JSON values

What JSON texts say, and which texts say it. The grammar is the whole one of the format, so that it
also has texts that no report is written in.

* `Datum`, the values, and `Datum.Spells`, the texts of each: literals, `Numeral`s, `Quoted` texts,
  arrays and objects, whose `Part`s stand between commas;
* `Piece`, what a quoted text is put together from, and `Piece.text?`, the characters meant: two
  code units that are a pair are one character, and a half of a pair alone is none;
* `Datum.IsText`, a value with white space around it.
-/

namespace ClassPack

/-- A value of a JSON text. The members of an object keep their order. -/
inductive Datum where
  | null
  | bool (b : Bool)
  | number (q : Rat)
  | text (s : String)
  | array (items : List Datum)
  | object (members : List (String × Datum))

namespace Datum

/-! ## White space -/

/-- The characters that may stand between the parts of a text. -/
def isGapChar (c : Char) : Bool := c = ' ' || c = '\t' || c = '\n' || c = '\r'

/-- Nothing but white space. -/
def IsGap (g : List Char) : Prop := ∀ c ∈ g, isGapChar c = true

/-! ## Numbers -/

/-- At least one digit, and nothing else. -/
def IsDigits (ds : List Char) : Prop := ds ≠ [] ∧ ∀ d ∈ ds, d.isDigit = true

/-- The digits before the point: a zero at the front stands alone. -/
def IsWhole (ds : List Char) : Prop := IsDigits ds ∧ (ds = ['0'] ∨ ds.head? ≠ some '0')

/-- The point and the digits after it. -/
inductive Fraction : List Char → List Char → Prop where
  | none : Fraction [] []
  | point {ds : List Char} : IsDigits ds → Fraction ('.' :: ds) ds

/-- The number that digits stand for. -/
def ofDigits (ds : List Char) : Nat := Nat.ofDigitChars 10 ds 0

/-- The digits of a power of ten, and its sign. -/
inductive Power : List Char → Int → Prop where
  | plain {ds : List Char} : IsDigits ds → Power ds (ofDigits ds)
  | plus {ds : List Char} : IsDigits ds → Power ('+' :: ds) (ofDigits ds)
  | minus {ds : List Char} : IsDigits ds → Power ('-' :: ds) (-(ofDigits ds : Int))

/-- The power of ten behind a number, if there is one. -/
inductive Exponent : List Char → Int → Prop where
  | none : Exponent [] 0
  | marked {mark : Char} {t : List Char} {exponent : Int} :
      mark = 'e' ∨ mark = 'E' → Power t exponent → Exponent (mark :: t) exponent

/-- The number with certain digits before and after the point, times a power of ten. -/
def decimal (whole fraction : List Char) (exponent : Int) : Rat :=
  (ofDigits (whole ++ fraction) : Rat) * 10 ^ (exponent - fraction.length)

/-- The texts of numbers that have no sign. -/
inductive Unsigned : List Char → Rat → Prop where
  | mk {whole point fraction power : List Char} {exponent : Int} :
      IsWhole whole → Fraction point fraction → Exponent power exponent →
        Unsigned (whole ++ (point ++ power)) (decimal whole fraction exponent)

/-- The texts of numbers. -/
inductive Numeral : List Char → Rat → Prop where
  | unsigned {t : List Char} {q : Rat} : Unsigned t q → Numeral t q
  | minus {t : List Char} {q : Rat} : Unsigned t q → Numeral ('-' :: t) (-q)

/-! ## Texts -/

/-- What a quoted text is put together from: characters, and code units of sixteen bits. -/
inductive Piece where
  | char (c : Char)
  | unit (n : Nat)

/-- The first half of a pair. -/
def isLead (n : Nat) : Bool := 0xD800 ≤ n && n < 0xDC00

/-- The second half of a pair. -/
def isTrail (n : Nat) : Bool := 0xDC00 ≤ n && n < 0xE000

/-- The characters that pieces stand for, if there is no half of a pair alone. -/
def Piece.text? : List Piece → Option (List Char)
  | [] => some []
  | .char c :: rest => (text? rest).map (c :: ·)
  | .unit n :: rest =>
      if isTrail n then none
      else if isLead n then
        match rest with
        | .unit m :: more =>
            if isTrail m then (text? more).map (Char.ofNat
              (0x10000 + (n - 0xD800) * 0x400 + (m - 0xDC00)) :: ·)
            else none
        | _ => none
      else (text? rest).map (Char.ofNat n :: ·)

/-- The value of a digit to the base sixteen. -/
def hexValue? (c : Char) : Option Nat :=
  if c.isDigit then some (c.toNat - '0'.toNat)
  else if 'a' ≤ c ∧ c ≤ 'f' then some (c.toNat - 'a'.toNat + 10)
  else if 'A' ≤ c ∧ c ≤ 'F' then some (c.toNat - 'A'.toNat + 10)
  else none

/-- The code unit with four digits. -/
def unit? (a b c d : Char) : Option Nat :=
  match hexValue? a, hexValue? b, hexValue? c, hexValue? d with
  | some i, some j, some k, some l => some (((i * 16 + j) * 16 + k) * 16 + l)
  | _, _, _, _ => none

/-- The characters that have a letter of their own behind a backslash. -/
def letters : List (Char × Char) :=
  [('"', '"'), ('\\', '\\'), ('/', '/'), ('b', '\x08'), ('f', '\x0c'), ('n', '\n'), ('r', '\r'),
   ('t', '\t')]

/-- What may stand between the quotes. -/
inductive Body : List Char → List Piece → Prop where
  | nil : Body [] []
  | plain {c : Char} {t : List Char} {ps : List Piece} :
      0x20 ≤ c.toNat → c ≠ '"' → c ≠ '\\' → Body t ps → Body (c :: t) (.char c :: ps)
  | letter {e c : Char} {t : List Char} {ps : List Piece} :
      letters.lookup e = some c → Body t ps → Body ('\\' :: e :: t) (.char c :: ps)
  | unit {a b c d : Char} {n : Nat} {t : List Char} {ps : List Piece} :
      unit? a b c d = some n → Body t ps →
      Body ('\\' :: 'u' :: a :: b :: c :: d :: t) (.unit n :: ps)

/-- The texts of texts. -/
inductive Quoted : List Char → String → Prop where
  | mk {t cs : List Char} {ps : List Piece} :
      Body t ps → Piece.text? ps = some cs → Quoted ('"' :: (t ++ ['"'])) (String.ofList cs)

/-! ## Values -/

/-- One item of an array, or one member of an object with its key: what stands before the value, its
text and what stands behind. -/
structure Part (κ : Type) where
  lead : List Char
  key : κ
  text : List Char
  value : Datum
  after : List Char

/-- All of a part. -/
def Part.whole {κ : Type} (p : Part κ) : List Char := p.lead ++ (p.text ++ p.after)

/-- Parts with commas between them. -/
def listed {κ : Type} (ps : List (Part κ)) : List Char := [','].intercalate (ps.map Part.whole)

/-- What stands before the value of a member. -/
inductive Label : List Char → String → Prop where
  | mk {before quoted mid after : List Char} {key : String} :
      IsGap before → Quoted quoted key → IsGap mid → IsGap after →
        Label (before ++ (quoted ++ (mid ++ ':' :: after))) key

/-- The texts of values. -/
inductive Spells : List Char → Datum → Prop where
  | null : Spells ['n', 'u', 'l', 'l'] .null
  | yes : Spells ['t', 'r', 'u', 'e'] (.bool true)
  | no : Spells ['f', 'a', 'l', 's', 'e'] (.bool false)
  | number {t : List Char} {q : Rat} : Numeral t q → Spells t (.number q)
  | text {t : List Char} {s : String} : Quoted t s → Spells t (.text s)
  | noItems {g : List Char} : IsGap g → Spells ('[' :: (g ++ [']'])) (.array [])
  | items {ps : List (Part Unit)} :
      ps ≠ [] → (∀ p ∈ ps, IsGap p.lead) → (∀ p ∈ ps, IsGap p.after) →
        (∀ p ∈ ps, Spells p.text p.value) → Spells ('[' :: (listed ps ++ [']']))
        (.array (ps.map Part.value))
  | noMembers {g : List Char} : IsGap g → Spells ('{' :: (g ++ ['}'])) (.object [])
  | members {ps : List (Part String)} :
      ps ≠ [] → (∀ p ∈ ps, Label p.lead p.key) → (∀ p ∈ ps, IsGap p.after) →
        (∀ p ∈ ps, Spells p.text p.value) → Spells ('{' :: (listed ps ++ ['}']))
        (.object (ps.map fun p => (p.key, p.value)))

/-- A whole text: a value, with white space around it. -/
inductive IsText : String → Datum → Prop where
  | mk {s : String} {before t after : List Char} {v : Datum} :
      IsGap before → Spells t v → IsGap after → s.toList = before ++ (t ++ after) → IsText s v

end Datum
end ClassPack
