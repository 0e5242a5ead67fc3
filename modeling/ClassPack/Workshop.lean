import ClassPack.Failure
import ClassPack.FileSystem.Calls

/-!
# Workshop — where the work of a run is done

* `Workshop`, what the steps of a run work on: the file system, the log, and the programs called;
* `Work`, steps that give a value or fail, and leave the workshop as far as they got;
* `Work.files` and `Work.log`, the two basic steps, each touching its own part only.
-/

namespace ClassPack

/-- How much a log record matters. -/
inductive Level where
  | info
  | debug
  | trace
  deriving DecidableEq, Repr

namespace Level

/-- The level in capitals. -/
def name : Level → String
  | .info => "INFO"
  | .debug => "DEBUG"
  | .trace => "TRACE"

/-- How often the flag for more words has to be given before records of a level are shown. -/
def threshold : Level → Nat
  | .info => 1
  | .debug => 2
  | .trace => 3

end Level

/-- A record of the log. -/
structure LogRecord where
  level : Level
  message : String
  deriving DecidableEq, Repr

/-- A program to be run and its arguments. -/
structure Invocation where
  program : String
  args : List String
  deriving DecidableEq, Repr

/-- What the steps of a run work on. -/
structure Workshop where
  files : FileSystem
  log : List LogRecord := []
  /-- The programs that were called. -/
  calls : List Invocation := []

/-- Steps of a run. -/
abbrev Work := EStateM Failure Workshop

namespace Work

/-- Calls on the file system; what refuses them is put into words by `failure`. -/
def files {α : Type} (failure : IoFault → Failure) (calls : FileSystem.Calls α) : Work α := fun w =>
  match calls w.files with
  | .ok a fs => .ok a { w with files := fs }
  | .error e fs => .error (failure e) { w with files := fs }

/-- What can be read off the file system. -/
def view {α : Type} (f : FileSystem → α) : Work α := fun w => .ok (f w.files) w

/-- Adds records of one level to the log. -/
def logAll (level : Level) (messages : List String) : Work Unit := fun w =>
  .ok () { w with log := w.log ++ messages.map (⟨level, ·⟩) }

/-- Adds a record to the log. -/
def log (level : Level) (message : String) : Work Unit := logAll level [message]

/-- Gives a value or fails, without a change. -/
def ofExcept {α : Type} : Except Failure α → Work α
  | .ok a => pure a
  | .error e => throw e

end Work
end ClassPack
