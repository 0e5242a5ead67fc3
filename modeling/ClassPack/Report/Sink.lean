import ClassPack.Text.Utf8

/-!
# Sink — where progress lines go

Progress is told as well as it can be. A sink may take only so many bytes; what it refuses is lost
and nobody is told, so that a reader who goes away breaks off no run.

* `Sink`, what was taken and how much room is left;
* `Sink.write`, which says whether all bytes were taken, and `Sink.writeLine`, which does not.
-/

namespace ClassPack

/-- A receiver of bytes. -/
structure Sink where
  /-- How many more bytes are taken; without a number, as many as come. -/
  room : Option Nat := none
  taken : Bytes := []
  deriving DecidableEq, Repr

namespace Sink

/-- Offers bytes; as many are taken as there is room for. Also tells whether these were all. -/
def write (s : Sink) (bytes : Bytes) : Sink × Bool :=
  match s.room with
  | none => ({ s with taken := s.taken ++ bytes }, true)
  | some n => (⟨some (n - bytes.length), s.taken ++ bytes.take n⟩, decide (bytes.length ≤ n))

/-- Offers a text and then the end of its line, unless the text was refused. -/
def offerLine (s : Sink) (text : String) : Sink × Bool :=
  match s.write (Utf8.encode text) with
  | (after, true) => after.write (Utf8.encode "\n")
  | (after, false) => (after, false)

/-- Writes a line and asks no questions. -/
def writeLine (s : Sink) (text : String) : Sink := (s.offerLine text).1

end Sink
end ClassPack
