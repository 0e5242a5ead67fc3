/-!
# Pattern — globs and how they are read

A glob is a text in which some characters stand for others:

* `?` for one character, `*` for any number of them inside one component of a path, and `**`, which
  has to be a component of its own, for any number of components;
* `[...]` for one character of a class, `[!...]` for one outside it. The first character of a class
  is a member whatever it is, so `[]]` is the class of the closing bracket.

All else stands for itself. `Glob.compile` reads the text into `Token`s from left to right and
reports the first `Fault`.
-/

namespace ClassPack
namespace Glob

/-- A member of a character class. -/
inductive Member where
  | single (c : Char)
  /-- All characters from `lo` to `hi` in code point order. -/
  | range (lo hi : Char)
  deriving DecidableEq, Repr

namespace Member

/-- Whether a character is among those that a member gives. -/
def covers : Member → Char → Bool
  | .single d, c => c == d
  | .range lo hi, c => decide (lo ≤ c ∧ c ≤ hi)

end Member

/-- A part of a glob. -/
inductive Token where
  /-- The character itself. -/
  | char (c : Char)
  /-- One character. -/
  | one
  /-- Any number of characters of one component. -/
  | some
  /-- Any number of components. -/
  | deep
  /-- One character of a class. -/
  | within (members : List Member)
  /-- One character outside a class. -/
  | without (members : List Member)
  deriving DecidableEq, Repr

/-- Why a text is no glob, and the index of the character that shows it. -/
inductive Fault where
  /-- Three stars in a row. -/
  | stars (position : Nat)
  /-- Two stars beside something other than a slash. -/
  | partialComponent (position : Nat)
  /-- A class that does not end. -/
  | openClass (position : Nat)
  deriving DecidableEq, Repr

namespace Fault

/-- The words for a fault. -/
def message : Fault → String
  | .stars n => text n "wildcards are either regular `*` or recursive `**`"
  | .partialComponent n => text n "recursive wildcards must form a single path component"
  | .openClass n => text n "invalid range pattern"
where
  /-- What every message starts with. -/
  text (position : Nat) (what : String) : String :=
    s!"Pattern syntax error near position {position}: {what}"

end Fault

/-! ## Character classes -/

/-- The members of a class: three characters with a dash in the middle give a range. -/
def members : List Char → List Member
  | lo :: '-' :: hi :: rest => .range lo hi :: members rest
  | c :: rest => .single c :: members rest
  | [] => []

/-- What stands before the first closing bracket and after it. -/
def splitAtBracket? : List Char → Option (List Char × List Char)
  | [] => none
  | ']' :: rest => some ([], rest)
  | c :: rest => (splitAtBracket? rest).map fun (inside, after) => (c :: inside, after)

theorem splitAtBracket?_length {text inside after : List Char}
    (h : splitAtBracket? text = some (inside, after)) : after.length < text.length := by
  fun_induction splitAtBracket? text generalizing inside with
  | case1 => simp at h
  | case2 rest =>
      cases h
      simp
  | case3 c rest _ ih =>
      obtain ⟨⟨inner, tail⟩, split, same⟩ := Option.map_eq_some_iff.1 h
      cases same
      have := ih split
      simp only [List.length_cons]
      omega

/-! ## Reading -/

/-- The tokens read so far, last first, with a `**` added. One that follows another is dropped,
unless the other is the first token of all. -/
def addDeep (done : List Token) : List Token :=
  match done with
  | .deep :: _ :: _ => done
  | _ => .deep :: done

/-- Reads on at a position, given the character before it and the tokens read so far, last first. -/
def compileFrom (position : Nat) (before : Option Char) (done : List Token) :
    List Char → Except Fault (List Token)
  | [] => .ok done.reverse
  | '*' :: '*' :: '*' :: _ => .error (.stars (position + 2))
  | '*' :: '*' :: rest =>
      if before = none ∨ before = some '/' then
        -- Two stars take the slash behind them along.
        match rest with
        | [] => .ok (addDeep done).reverse
        | '/' :: rest => compileFrom (position + 3) (some '/') (addDeep done) rest
        | _ => .error (.partialComponent (position + 2))
      else .error (.partialComponent (position - 1))
  | '*' :: rest => compileFrom (position + 1) (some '*') (.some :: done) rest
  | '?' :: rest => compileFrom (position + 1) (some '?') (.one :: done) rest
  | '[' :: '!' :: first :: rest =>
      match _ : splitAtBracket? rest with
      | some (inside, after) =>
          compileFrom (position + inside.length + 4) (some ']')
            (.without (members (first :: inside)) :: done) after
      | none => .error (.openClass position)
  | ['[', '!'] => .error (.openClass position)
  | '[' :: first :: rest =>
      match _ : splitAtBracket? rest with
      | some (inside, after) =>
          compileFrom (position + inside.length + 3) (some ']')
            (.within (members (first :: inside)) :: done) after
      | none => .error (.openClass position)
  | ['['] => .error (.openClass position)
  | c :: rest => compileFrom (position + 1) (some c) (.char c :: done) rest
termination_by text => text.length
decreasing_by
  all_goals first
    | (rename_i split; have := splitAtBracket?_length split; simp only [List.length_cons]; omega)
    | (simp only [List.length_cons]; omega)

/-- Reads a glob. -/
def compile (text : String) : Except Fault (List Token) := compileFrom 0 none [] text.toList

end Glob
end ClassPack
