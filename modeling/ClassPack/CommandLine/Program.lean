import ClassPack.CommandLine.Reading
import ClassPack.Packaging

/-!
# Program — what becomes of a command line

* `Ending`, all that a caller of the program can see afterwards;
* `perform`, from options to the ending, with `currentDir`, where relative paths start, and
  `report`, the closing lines of a run that went well.
-/

namespace ClassPack

/-- What a caller of the program sees. -/
structure Ending where
  exitCode : Nat
  stdout : Sink
  /-- The lines on the error stream: the log, as far as it was asked for, and the failure. -/
  stderr : List String
  workshop : Workshop

/-- Closes a run that went well: with `--json` nothing but the summary, which has to get out; else
the time, after the counts if more words were asked for. -/
def report (o : Options) (summary : Summary) (stdout : Sink) : Sink × Option Failure :=
  if o.json then
    match stdout.offerLine summary.json.render with
    | (after, true) => (after, none)
    | (after, false) => (after, some (.writeFailed (.os .noSpace)))
  else if o.quiet then (stdout, none)
  else
    let counted := if 0 < o.verbosity then stdout.writeLine summary.displayText else stdout
    (counted.writeLine (usedTimeLine summary.elapsed), none)

/-- The lines of a log that are shown when more words were asked for so often. -/
def shownLines (verbosity : Nat) (log : List LogRecord) : List String :=
  (log.filter fun r => r.level.threshold ≤ verbosity).map fun r => s!"{r.level.name} {r.message}"

/-- Puts an ending together. -/
def ending (o : Options) (failure? : Option Failure) (stdout : Sink) (w : Workshop) : Ending where
  exitCode := failure?.elim 0 Failure.exitCode
  stdout := stdout
  stderr := shownLines o.verbosity w.log ++ (failure?.map fun f => s!"error: {f.message}").toList
  workshop := w

/-- The text of the current directory, if that still stands and its path is a text. -/
def currentDir (fs : FileSystem) : Except Failure String :=
  if fs.isDirectoryAt fs.workingDir then
    match Utf8.decode? fs.workingDir.path with
    | some text => .ok text
    | none => .error (.invalidConfig (.strangeCurrentDir fs.workingDir.path))
  else .error (.io (.os .noEntry))

/-- Carries out options in a file system, whose working directory is the current directory. -/
def perform (o : Options) (host : Host) (fs : FileSystem) (stdout : Sink) (elapsed : Nat) :
    Ending :=
  match currentDir fs with
  | .error failure => ending o (some failure) stdout { files := fs }
  | .ok here =>
      let config := o.toConfig here
      if o.dryRun then
        match plan config fs with
        | .ok info => ending o none (stdout.writeLine info.planText) { files := fs }
        | .error failure => ending o (some failure) stdout { files := fs }
      else
        -- A quiet run tells its progress to a sink that nobody looks at.
        let start : Session :=
          { workshop := { files := fs }, out := if o.isQuiet then {} else stdout }
        match run config (archiverFor host config) elapsed start with
        | .ok summary s =>
            let (closed, failure?) := report o summary (if o.isQuiet then stdout else s.out)
            ending o failure? closed s.workshop
        | .error failure s =>
            ending o (some failure) (if o.isQuiet then stdout else s.out) s.workshop

end ClassPack
