import ClassPack.Text.Blank
import ClassPack.Text.Utf8

/-!
# Status — how a child program ended

* `WaitStatus`, the number that the system hands to whoever waits for a child, with the ways to read
  it: `code?`, `signal?`, `stopSignal?`;
* `WaitStatus.message`, the words for it;
* `Output`, the status together with what the child printed, and `Output.diagnostic`, the part of it
  worth showing.
-/

namespace ClassPack

/-- The number that tells how a child ended. -/
structure WaitStatus where
  raw : Nat
  deriving DecidableEq, Repr

namespace WaitStatus

/-- A child that ended by itself with a code. -/
def exited (code : Nat) : WaitStatus := ⟨code % 256 * 256⟩

/-- A child that was ended by a signal. -/
def killed (signal : Nat) : WaitStatus := ⟨signal⟩

/-- Whether the child ended by itself with code 0. -/
def isSuccess (s : WaitStatus) : Bool := s.raw == 0

/-- The code of a child that ended by itself. -/
def code? (s : WaitStatus) : Option Nat :=
  if s.raw % 128 = 0 then some (s.raw / 256 % 256) else none

/-- The signal that ended a child. -/
def signal? (s : WaitStatus) : Option Nat :=
  if s.raw % 128 = 0 ∨ s.raw % 128 = 127 then none else some (s.raw % 128)

/-- Whether the child left an image of its memory. -/
def dumpedCore (s : WaitStatus) : Bool := s.signal?.isSome && s.raw / 128 % 2 == 1

/-- The signal that stopped a child without ending it. -/
def stopSignal? (s : WaitStatus) : Option Nat :=
  if s.raw % 256 = 127 then some (s.raw / 256 % 256) else none

/-- The names of the signals, from 1 on. -/
def signalNames : List String :=
  ["SIGHUP", "SIGINT", "SIGQUIT", "SIGILL", "SIGTRAP", "SIGABRT", "SIGBUS", "SIGFPE", "SIGKILL",
   "SIGUSR1", "SIGSEGV", "SIGUSR2", "SIGPIPE", "SIGALRM", "SIGTERM", "SIGSTKFLT",
   "SIGCHLD", "SIGCONT", "SIGSTOP", "SIGTSTP", "SIGTTIN", "SIGTTOU", "SIGURG", "SIGXCPU", "SIGXFSZ",
   "SIGVTALRM", "SIGPROF", "SIGWINCH", "SIGIO", "SIGPWR", "SIGSYS"]

/-- A signal's number and, if it has one, its name. -/
def signalText (n : Nat) : String :=
  match n with
  | 0 => "0"
  | k + 1 =>
      match signalNames[k]? with
      | some name => s!"{n} ({name})"
      | none => toString n

/-- The digits of a number to the base sixteen. -/
def hexText (n : Nat) : String := "0x" ++ String.ofList (Nat.toDigits 16 n)

/-- The words for a status. -/
def message (s : WaitStatus) : String :=
  match s.code? with
  | some code => s!"exit status: {code}"
  | none =>
      match s.signal? with
      | some n => s!"signal: {signalText n}" ++ (if s.dumpedCore then " (core dumped)" else "")
      | none =>
          match s.stopSignal? with
          | some n => s!"stopped (not terminated) by signal: {signalText n}"
          | none =>
              if s.raw = 0xFFFF then "continued (WIFCONTINUED)"
              else s!"unrecognised wait status: {s.raw} {hexText s.raw}"

end WaitStatus

/-- What came of a child program. -/
structure Output where
  status : WaitStatus
  stdout : Bytes
  stderr : Bytes
  deriving DecidableEq, Repr

namespace Output

/-- What a child said, without white space around it: on its error stream if that says anything,
else on its output stream. -/
def diagnostic (o : Output) : String :=
  let stderr := Blank.trim (Utf8.lossy o.stderr)
  let stdout := Blank.trim (Utf8.lossy o.stdout)
  if stderr ≠ "" then stderr else if stdout ≠ "" then stdout else "no diagnostic output"

end Output
end ClassPack
