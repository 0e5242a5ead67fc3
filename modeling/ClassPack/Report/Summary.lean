import ClassPack.Config
import ClassPack.Report.Json

/-!
# Summary — what a run has done, and what it would do

* `Summary` with its text for people, `Summary.lines`, and for programs, `Summary.json`;
* `usedTimeLine`, the last line of a run that went well;
* `DryRunInfo`, what is told of a run that is not made, with its text.
-/

namespace ClassPack

/-- What a run has done. -/
structure Summary where
  archivePath : String
  /-- How many class files are in the archive. -/
  classFiles : Nat
  auxFiles : AuxReport
  /-- How many jars were copied beside the archive. -/
  prebuiltArchives : Nat
  /-- How many milliseconds it took. -/
  elapsed : Nat
  deriving DecidableEq, Repr

namespace Summary

/-- The lines for people. -/
def lines (s : Summary) : List String :=
  [s!"Archive: {s.archivePath}",
   s!"  class files: {s.classFiles}",
   s!"  staged auxiliary files: {s.auxFiles.staged}",
   s!"Auxiliary files written to the working directory: {s.auxFiles.workingDir}",
   s!"Pre-built archives copied: {s.prebuiltArchives}"]

/-- The text for people. -/
def displayText (s : Summary) : String := "\n".intercalate s.lines

/-- The value for programs. -/
def json (s : Summary) : Json :=
  .object
    [("archive_path", .text s.archivePath),
     ("class_files", .number s.classFiles),
     ("aux_files", .object
       [("staged", .number s.auxFiles.staged), ("working_dir", .number s.auxFiles.workingDir)]),
     ("prebuilt_archives", .number s.prebuiltArchives),
     ("elapsed_ms", .number s.elapsed)]

end Summary

/-- The last line of a run that went well. -/
def usedTimeLine (elapsed : Nat) : String := s!"Used time: {elapsed}ms"

/-- What is told of a run that is not made. -/
structure DryRunInfo where
  sourceRoot : String
  workingDir : String
  layout : Layout
  archiver : ArchiverKind
  /-- How many seconds the archiver has, if it is a program with a bound. -/
  archiverTimeout : Option Nat
  auxFiles : List AuxFile
  deriving DecidableEq, Repr

namespace DryRunInfo

/-- What is told of a configuration. -/
def ofConfig (c : Config) : DryRunInfo where
  sourceRoot := c.sourceRoot
  workingDir := c.workingDir
  layout := c.layout
  archiver := c.archiver
  archiverTimeout := c.archiverTimeout
  auxFiles := c.auxFiles

/-- What would become of a file of the manifest. -/
def auxLine (info : DryRunInfo) (f : AuxFile) : String :=
  let root :=
    match f.placement with
    | .staged => info.layout.stagingDir
    | .workingDir => info.workingDir
  s!"  - {f.source} -> {joinText root f.target}"

/-- The lines that tell what a run would do. -/
def planLines (info : DryRunInfo) : List String :=
  let timeout :=
    match info.archiverTimeout with
    | some seconds => s!"{seconds}s"
    | none => "none"
  ["Dry run - no files will be modified",
   "",
   s!"Source root: {info.sourceRoot}",
   s!"Working directory: {info.workingDir}",
   s!"Destination root (recreated): {info.layout.destinationRoot}",
   s!"Staging directory: {info.layout.stagingDir}",
   s!"Archive: {info.layout.archivePath}",
   s!"Archiver: {info.archiver.flagName}",
   s!"Archiver timeout: {timeout}",
   "",
   "Auxiliary files:"] ++ info.auxFiles.map info.auxLine

/-- The text that tells what a run would do. -/
def planText (info : DryRunInfo) : String := "\n".intercalate info.planLines

end DryRunInfo

/-- The text that tells what a run of a configuration would do, whether or not it is accepted. -/
def Config.planText (c : Config) : String := (DryRunInfo.ofConfig c).planText

end ClassPack
