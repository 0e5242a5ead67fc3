/-!
# Json — the values of a report and their text

Only what reports need: texts, natural numbers, and objects whose members keep their order.

* `Json`, the values, and `Json.render`, their text: one member to a line, two spaces for each
  level;
* `Json.escape`, the characters that stand for one character of a text.
-/

namespace ClassPack

/-- A value of a report. -/
inductive Json where
  | text (s : String)
  | number (n : Nat)
  | object (members : List (String × Json))

namespace Json

/-! ## Texts -/

/-- A digit to the base sixteen. -/
def hexDigit (n : Nat) : Char := (Nat.toDigits 16 (n % 16)).headD '0'

/-- What stands for a character between quotes: quotes, backslashes and control characters have two
or six characters, all others stand for themselves. -/
def escape (c : Char) : List Char :=
  if c = '"' then ['\\', '"']
  else if c = '\\' then ['\\', '\\']
  else if c = '\n' then ['\\', 'n']
  else if c = '\r' then ['\\', 'r']
  else if c = '\t' then ['\\', 't']
  else if c = '\x08' then ['\\', 'b']
  else if c = '\x0c' then ['\\', 'f']
  else if c.toNat < 0x20 then ['\\', 'u', '0', '0', hexDigit (c.toNat / 16), hexDigit c.toNat]
  else [c]

/-- A text between quotes. -/
def quoted (s : String) : List Char := '"' :: s.toList.flatMap escape ++ ['"']

/-! ## Values -/

/-- A new line and the spaces for a level. -/
def newLine (level : Nat) : List Char := '\n' :: List.replicate (2 * level) ' '

mutual

/-- The characters of a value that starts on a line of the given level. -/
def chars (level : Nat) : Json → List Char
  | .text s => quoted s
  | .number n => (Nat.toDigits 10 n)
  | .object [] => ['{', '}']
  | .object (m :: ms) =>
      '{' :: memberChars (level + 1) m ++ restChars (level + 1) ms ++ newLine level ++ ['}']

/-- The characters of a member on a line of its own. -/
def memberChars (level : Nat) : String × Json → List Char
  | (key, value) => newLine level ++ quoted key ++ [':', ' '] ++ chars level value

/-- The characters of the members after the first. -/
def restChars (level : Nat) : List (String × Json) → List Char
  | [] => []
  | m :: ms => ',' :: memberChars level m ++ restChars level ms

end

/-- The text of a value. -/
def render (v : Json) : String := String.ofList (chars 0 v)

end Json
end ClassPack
