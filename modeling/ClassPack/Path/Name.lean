import ClassPack.Path.Text
import Std.Data.ExtTreeMap

/-!
# Name — entry names, places and the steps of a path

* `Name`, a name that an entry of a directory can have, ordered by its bytes;
* `Place`, the names on the way from the root to an entry: where something *is*, while a `Path` is
  what was *written*;
* `Segment`, one step of a path, and `Path.segments`, the steps that a text asks for.
-/

namespace ClassPack

/-! ## Names -/

/-- A name is not empty, holds neither a slash nor a zero byte, and is not one of the two dot
names. -/
def Name.Valid (b : Bytes) : Prop := b ≠ [] ∧ b ≠ [dot] ∧ b ≠ [dot, dot] ∧ slash ∉ b ∧ 0 ∉ b

instance (b : Bytes) : Decidable (Name.Valid b) := by unfold Name.Valid; infer_instance

/-- The name of an entry in a directory. -/
structure Name where
  bytes : Bytes
  valid : Name.Valid bytes
  deriving DecidableEq

namespace Name

/-- The name with the given bytes, if they can be one. -/
def ofBytes? (b : Bytes) : Option Name := if h : Valid b then some ⟨b, h⟩ else none

/-- The name as a string, if its bytes spell one. -/
def text? (n : Name) : Option String := Utf8.decode? n.bytes

/-- Names that start with a dot are hidden, unless their bytes spell no text. -/
def isHidden (n : Name) : Bool := n.bytes.head? == some dot && n.text?.isSome

instance : Ord Name := ⟨fun m n => compare m.bytes n.bytes⟩

theorem compare_def (m n : Name) : compare m n = compare m.bytes n.bytes := rfl

instance : Std.TransOrd Name := inferInstanceAs (Std.TransCmp (compareOn Name.bytes))

instance : Std.LawfulEqOrd Name where
  eq_of_compare {m n} h := by
    have bytes_eq : m.bytes = n.bytes :=
      Std.LawfulEqOrd.eq_of_compare (show compare m.bytes n.bytes = .eq from h)
    cases m
    cases n
    simp_all

end Name

/-! ## Places -/

/-- The names from the root down to an entry; the root itself is the empty list. -/
abbrev Place := List Name

namespace Place

/-- The directory that holds an entry. The root holds itself. -/
def parent (p : Place) : Place := p.dropLast

/-- How to get from `p` down to `q`, if `q` is at or below `p`. -/
def below? : Place → Place → Option Place
  | [], q => some q
  | _ :: _, [] => none
  | m :: p, n :: q => if m = n then below? p q else none

/-- The text of a place below some directory: the names with slashes between them. -/
def relativePath (p : Place) : Path := Path.glue (p.map Name.bytes)

/-- The absolute text of a place. -/
def path (p : Place) : Path := slash :: p.relativePath

theorem below?_eq_some_iff {p q r : Place} : below? p q = some r ↔ q = p ++ r := by
  induction p generalizing q with
  | nil => simp [below?]
  | cons m p ih =>
      cases q with
      | nil => simp [below?]
      | cons n q =>
          by_cases same : m = n
          · -- One step in common: on to the rest.
            simp [below?, same, ih]
          · simp [below?, same, Ne.symm same]

/-- Of two places below one directory, the way down from there decides which comes first. -/
theorem compare_append_left (p q r : Place) : compare (p ++ q) (p ++ r) = compare q r := by
  induction p with
  | nil => rfl
  | cons m p ih => simp [List.compare_cons_cons, Std.ReflCmp.compare_self, ih]

theorem below?_self_append (p r : Place) : below? p (p ++ r) = some r :=
  below?_eq_some_iff.2 rfl

end Place

/-! ## Steps -/

/-- One step of a path. -/
inductive Segment where
  /-- Stay, but only in a directory. -/
  | here
  /-- Go to the directory above. -/
  | up
  /-- Go to an entry. -/
  | name (n : Name)
  deriving DecidableEq

/-- The step that a piece of a text asks for; an empty piece asks for none. -/
def Segment.ofPiece? (piece : Bytes) : Option Segment :=
  if piece = [dot] then some .here
  else if piece = [dot, dot] then some .up
  else (Name.ofBytes? piece).map .name

/-- The steps that a text asks for. -/
def Path.segments (p : Path) : List Segment := (Path.pieces p).filterMap Segment.ofPiece?

end ClassPack
