import ClassPack.Workshop

/-!
# Rehearsal — calls that are expected in order

A rehearsal answers each call with the result that was laid down for it. A call that comes
unexpected, or differs from the one expected, has no answer; the expectation is used up all the
same.
-/

namespace ClassPack

namespace Output

/-- A program that ended well and said nothing. -/
def success : Output := ⟨.exited 0, [], []⟩

/-- A program that ended with code 1 and complained. -/
def complaint (text : Bytes) : Output := ⟨.exited 1, [], text⟩

end Output

/-- An expected call and its result. -/
structure ExpectedCall where
  call : Invocation
  result : Except Failure Output

/-- The expectations that are left. -/
abbrev Rehearsal := List ExpectedCall

namespace Rehearsal

/-- Answers a call, if it is the one expected. -/
def answer (call : Invocation) : Rehearsal → Option (Except Failure Output) × Rehearsal
  | [] => (none, [])
  | next :: rest => (if next.call = call then some next.result else none, rest)

/-- Whether every expected call has come. -/
def isFinished (r : Rehearsal) : Bool := r.isEmpty

end Rehearsal
end ClassPack
