import ClassPack.Process.Child

/-!
# Shell — a few small programs that hosts have

`true`, `false`, `sleep`, and a shell for one-line scripts: simple commands one after the other,
words with quotes and variables, output sent to the other stream. As programs they are values of
`Child`; the standard input of all of them is empty.

* `Shell.Word` and `Shell.lex`, the words of a script;
* `Shell.exec`, one command, and `Shell.runScript`, a whole script;
* `standardHost`, a host with these programs.
-/

namespace ClassPack
namespace Shell

/-! ## Words -/

/-- A piece of a word. -/
inductive Piece where
  | text (c : Char)
  /-- A variable, or one of the two special ones, `?` and `$`. -/
  | var (name : String)
  deriving DecidableEq, Repr

/-- A word of a command; `isQuoted` says whether quotes were part of it, so that it stands even if
it is empty. -/
structure Word where
  pieces : List Piece := []
  isQuoted : Bool := false
  deriving DecidableEq, Repr

/-- What a script consists of. -/
inductive Lexeme where
  | word (w : Word)
  /-- The next command comes in any case. -/
  | next
  /-- The next command comes if the last one went well. -/
  | ifWell
  /-- The next command comes if the last one went wrong. -/
  | ifWrong
  /-- Output to one stream goes to the other. -/
  | redirect (source target : Stream)
  deriving DecidableEq, Repr

/-- Where a reader of a script stands. -/
inductive Quote where
  | none
  | single
  | double
  deriving DecidableEq, Repr

/-- Ends the word that is being read. -/
def endWord : Option Word → List Lexeme
  | some w => [.word { w with pieces := w.pieces.reverse }]
  | none => []

/-- Adds a piece to the word that is being read. -/
def addPiece (w : Option Word) (p : Piece) : Option Word :=
  let w := w.getD {}
  some { w with pieces := p :: w.pieces }

/-- Notes that the word that is being read has quotes. -/
def markQuoted (w : Option Word) : Option Word := some { w.getD {} with isQuoted := true }

/-- Whether a character can be part of a variable's name. -/
def isNameChar (c : Char) : Bool := c.isAlphanum || c == '_'

/-- The letters of a variable's name at the front of a text, and what comes after. -/
def splitName (text : List Char) : List Char × List Char :=
  (text.takeWhile isNameChar, text.dropWhile isNameChar)

/-- Reads a script. The pieces of the word that is being read are kept last first. -/
def lex (fuel : Nat) (quote : Quote) (word : Option Word) (text : List Char) : List Lexeme :=
  match fuel with
  | 0 => endWord word
  | fuel + 1 =>
      match quote, text with
      | _, [] => endWord word
      | .single, '\'' :: rest => lex fuel .none word rest
      | .single, c :: rest => lex fuel .single (addPiece word (.text c)) rest
      | .double, '"' :: rest => lex fuel .none word rest
      | .none, '\'' :: rest => lex fuel .single (markQuoted word) rest
      | .none, '"' :: rest => lex fuel .double (markQuoted word) rest
      | .double, '\\' :: c :: rest =>
          if c = '"' ∨ c = '\\' ∨ c = '$' then lex fuel .double (addPiece word (.text c)) rest
          else lex fuel .double (addPiece (addPiece word (.text '\\')) (.text c)) rest
      | .none, '\\' :: c :: rest => lex fuel .none (addPiece (markQuoted word) (.text c)) rest
      | _, '$' :: '?' :: rest => lex fuel quote (addPiece word (.var "?")) rest
      | _, '$' :: '$' :: rest => lex fuel quote (addPiece word (.var "$")) rest
      | _, '$' :: '{' :: rest =>
          let (name, after) := splitName rest
          lex fuel quote (addPiece word (.var (String.ofList name))) (after.drop 1)
      | _, '$' :: rest =>
          match splitName rest with
          | ([], _) => lex fuel quote (addPiece word (.text '$')) rest
          | (name, after) => lex fuel quote (addPiece word (.var (String.ofList name))) after
      | .double, c :: rest => lex fuel .double (addPiece word (.text c)) rest
      | .none, '>' :: '&' :: '2' :: rest =>
          endWord word ++ .redirect .stdout .stderr :: lex fuel .none none rest
      | .none, '1' :: '>' :: '&' :: '2' :: rest =>
          endWord word ++ .redirect .stdout .stderr :: lex fuel .none none rest
      | .none, '2' :: '>' :: '&' :: '1' :: rest =>
          endWord word ++ .redirect .stderr .stdout :: lex fuel .none none rest
      | .none, '&' :: '&' :: rest => endWord word ++ .ifWell :: lex fuel .none none rest
      | .none, '|' :: '|' :: rest => endWord word ++ .ifWrong :: lex fuel .none none rest
      | .none, c :: rest =>
          if c = ';' ∨ c = '\n' then endWord word ++ .next :: lex fuel .none none rest
          else if c = ' ' ∨ c = '\t' then endWord word ++ lex fuel .none none rest
          else lex fuel .none (addPiece word (.text c)) rest

/-! ## Commands -/

/-- What a running script knows. -/
structure State where
  bindings : List (String × String) := []
  /-- How the last command ended. -/
  code : Nat := 0
  /-- What was done so far, last first. -/
  acts : List Act := []
  /-- How the script ended, if it has. -/
  ended : Option WaitStatus := none

/-- The text of a piece; the number of a script's own process is not told, only that it is meant. -/
def State.expand (s : State) : Piece → List Char
  | .text c => [c]
  | .var "?" => (toString s.code).toList
  | .var "$" => ['$', '$']
  | .var name => ((s.bindings.lookup name).getD "").toList

/-- The words of a command with their variables filled in; a word of which nothing is left is
dropped. -/
def State.words (s : State) (words : List Word) : List String :=
  words.filterMap fun w =>
    let text := w.pieces.flatMap s.expand
    if text.isEmpty && !w.isQuoted then none else some (String.ofList text)

/-- The number that digits spell, and 0 if there are none. -/
def numberOf (text : String) : Nat := text.toNat?.getD 0

/-- How many milliseconds a number of seconds is, which may have a decimal part. -/
def milliseconds (text : String) : Nat :=
  match text.splitOn "." with
  | [whole] => numberOf whole * 1000
  | [whole, part] =>
      numberOf whole * 1000 + numberOf (String.ofList ((part.toList ++ ['0', '0', '0']).take 3))
  | _ => 0

/-- The number of a signal, given as a number or by its name without `SIG`. -/
def signalOf (text : String) : Nat :=
  match text.toNat? with
  | some n => n
  | none =>
      match WaitStatus.signalNames.findIdx? fun name => name = text ∨ name = "SIG" ++ text with
      | some k => k + 1
      | none => 15

/-- The byte that up to `n` octal digits spell, and what comes after them. -/
def octal : Nat → Nat → List Char → UInt8 × List Char
  | n + 1, value, c :: rest =>
      if '0' ≤ c ∧ c ≤ '7' then octal n (8 * value + (c.toNat - '0'.toNat)) rest
      else (UInt8.ofNat value, c :: rest)
  | _, value, rest => (UInt8.ofNat value, rest)

/-- A text made longer at its front, up to a width. -/
def padded (width : Nat) (filler : Char) (text : String) : String :=
  String.ofList (List.replicate (width - text.length) filler) ++ text

/-- What a format prints: `%s` and `%d` take the next argument, perhaps with a width before the
letter, and some characters have a meaning after a backslash. -/
def format (fuel : Nat) (shape : List Char) (args : List String) : Bytes :=
  match fuel, shape with
  | 0, _ | _, [] => []
  | fuel + 1, '\\' :: 'n' :: rest => 0x0A :: format fuel rest args
  | fuel + 1, '\\' :: 'r' :: rest => 0x0D :: format fuel rest args
  | fuel + 1, '\\' :: 't' :: rest => 0x09 :: format fuel rest args
  | fuel + 1, '\\' :: '\\' :: rest => 0x5C :: format fuel rest args
  | fuel + 1, '\\' :: c :: rest =>
      if '0' ≤ c ∧ c ≤ '7' then
        let (byte, after) := octal 3 0 (c :: rest)
        byte :: format fuel after args
      else 0x5C :: format fuel (c :: rest) args
  | fuel + 1, '%' :: '%' :: rest => 0x25 :: format fuel rest args
  | fuel + 1, '%' :: rest =>
      let width := numberOf (String.ofList (rest.takeWhile Char.isDigit))
      let filler := if rest.head? = some '0' then '0' else ' '
      match rest.dropWhile Char.isDigit with
      | 's' :: after =>
          Utf8.encode (padded width ' ' (args.headD "")) ++ format fuel after (args.drop 1)
      | 'd' :: after =>
          Utf8.encode (padded width filler (args.headD "0")) ++ format fuel after (args.drop 1)
      | _ => 0x25 :: format fuel rest args
  | fuel + 1, c :: rest => Utf8.encode c.toString ++ format fuel rest args

/-- Carries out a command given by its words; `sent` says where its output goes. -/
def execWords (sent : Stream → Stream) (s : State) (words : List String) : State :=
  let print (stream : Stream) (bytes : Bytes) (code : Nat) : State :=
    { s with code, acts := .print (sent stream) bytes :: s.acts }
  let say (stream : Stream) (text : String) (code : Nat) : State :=
    print stream (Utf8.encode text) code
  match words with
  | [] => { s with code := 0 }
  | "exec" :: words =>
      if words.isEmpty then { s with code := 0 }
      else
        let last := execWords sent s words
        { last with ended := some (last.ended.getD (.exited last.code)) }
  | "exit" :: args =>
      { s with ended := some (.exited (match args with | [] => s.code | n :: _ => numberOf n)) }
  | ["kill", target] =>
      if target = "$$" then { s with ended := some (.killed 15) } else { s with code := 1 }
  | "kill" :: signal :: target :: _ =>
      let number := signalOf (String.ofList (signal.toList.drop 1))
      if target = "$$" then
        if number = 0 then { s with code := 0 } else { s with ended := some (.killed number) }
      else { s with code := 1 }
  | "echo" :: "-n" :: args => say .stdout (" ".intercalate args) 0
  | "echo" :: args => say .stdout (" ".intercalate args ++ "\n") 0
  | "printf" :: shape :: args => print .stdout (format (shape.length + 1) shape.toList args) 0
  | ["head", "-c", count, "/dev/zero"] => print .stdout (List.replicate (numberOf count) 0) 0
  | "read" :: names =>
      { s with code := 1, bindings := names.map (·, "") ++ s.bindings }
  | "sleep" :: time :: _ => { s with code := 0, acts := .pause (milliseconds time) :: s.acts }
  | ":" :: _ | "true" :: _ | ["cat"] => { s with code := 0 }
  | "false" :: _ => { s with code := 1 }
  | name :: _ => say .stderr s!"sh: 1: {name}: not found\n" 127

/-- Carries out one command, its variables filled in first. -/
def exec (sent : Stream → Stream) (s : State) (words : List Word) : State :=
  execWords sent s (s.words words)

/-- Whether the next command comes, given how the last one ended. -/
def comes (code : Nat) : Lexeme → Bool
  | .ifWell => code == 0
  | .ifWrong => code != 0
  | _ => true

/-- Carries out the command that was read last, unless it is skipped or the script has ended. -/
def finish (s : State) (skipped : Bool) (sent : Stream → Stream) (words : List Word) : State :=
  if skipped || s.ended.isSome || words.isEmpty then s else exec sent s words

/-- Goes through a script; the words of the present command are kept last first. -/
def runLexemes (s : State) (skipped : Bool) (sent : Stream → Stream) (words : List Word) :
    List Lexeme → State
  | [] => finish s skipped sent words.reverse
  | .word w :: rest => runLexemes s skipped sent (w :: words) rest
  | .redirect source target :: rest =>
      runLexemes s skipped (fun stream => if stream = source then target else sent stream) words
        rest
  | joint :: rest =>
      let s := finish s skipped sent words.reverse
      runLexemes s (!comes s.code joint) id [] rest

/-- What a script does, and how it ends; the arguments after it are its variables `0`, `1` and so
on. -/
def runScript (text : String) (args : List String) : Child :=
  let bindings := args.zipIdx.map fun (arg, i) => (toString i, arg)
  let s := runLexemes { bindings } false id [] (lex (text.length + 1) .none none text.toList)
  ⟨s.acts.reverse, s.ended.getD (.exited s.code)⟩

/-! ## Programs -/

/-- The shell, given a script. -/
def shell (args : List String) : Child :=
  match args with
  | "-c" :: script :: args => runScript script args
  | _ => ⟨[], .exited 0⟩

/-- A program that waits, the sum of its arguments in seconds. -/
def sleep (args : List String) : Child := ⟨args.map fun a => .pause (milliseconds a), .exited 0⟩

end Shell

/-- Adds a file that is no program, and the directory that holds it. -/
def addPlainFile (dir name : String) (h : Host) : Host :=
  match Name.ofBytes? (Utf8.encode dir), Name.ofBytes? (Utf8.encode name) with
  | some d, some n =>
      { h with files := (h.files.put [] d .directory).put [d] n (.file (.plain [])) }
  | _, _ => h

/-- A host with a shell and the smallest of programs, and a file that is none. -/
def standardHost : Host :=
  addPlainFile "etc" "passwd" <| .ofPrograms
    [("sh", Shell.shell), ("sleep", Shell.sleep), ("true", fun _ => ⟨[], .exited 0⟩),
     ("false", fun _ => ⟨[], .exited 1⟩)]

end ClassPack
