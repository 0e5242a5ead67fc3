import ClassPack.Archive.Zip
import ClassPack.Artifact
import ClassPack.Report.Sink
import ClassPack.Report.Summary

/-!
# Packaging — a run from beginning to end

A run goes one step at a time: the output directory is made anew, class files and the manifest's
files are staged, the staged tree is archived and taken away, and the game's own jars are copied
beside the archive. The first failure breaks it off, and nothing is undone.

* `Session`, what a run works on: the workshop, the sink for progress lines, and the requests made
  of the archiver;
* `Run`, its steps, and `run`; `plan`, the check without the run;
* `archiverFor`, the archiver that a configuration names.
-/

namespace ClassPack

/-- What was asked of an archiver: the two paths, and the file system as it was then. -/
structure ArchiveRequest where
  staged : String
  archive : String
  files : FileSystem

/-- What a run works on. -/
structure Session where
  workshop : Workshop
  out : Sink := {}
  requests : List ArchiveRequest := []

/-- Steps of a run. -/
abbrev Run := EStateM Failure Session

namespace Run

/-- Work in the workshop. -/
def work {α : Type} (steps : Work α) : Run α := fun s =>
  match steps s.workshop with
  | .ok a w => .ok a { s with workshop := w }
  | .error e w => .error e { s with workshop := w }

/-- Writes a progress line. -/
def say (line : String) : Run Unit := fun s => .ok () { s with out := s.out.writeLine line }

/-- Has an archiver make the archive, and notes the request. -/
def request (archiver : Archiver) (staged archive : String) : Run Unit := fun s =>
  work (archiver.pack staged archive)
    { s with requests := s.requests ++ [⟨staged, archive, s.workshop.files⟩] }

end Run

/-- Accepts a configuration or breaks off; nothing changes. -/
def checkConfig (c : Config) : Run Unit := fun s =>
  match c.validate s.workshop.files with
  | .ok () => .ok () s
  | .error e => .error e s

/-- Makes the output directory and the staging directory anew. -/
def prepare (c : Config) : Work Unit := do
  Work.log .debug s!"rebuilding {c.layout.destinationRoot}"
  recreateDir c.layout.destinationRoot
  prepareStaging c.layout.stagingDir

/-- Fills the staging directory, and copies what goes into the working directory. -/
def fillStaging (c : Config) : Work (List String × AuxReport) := do
  let classes ← collect c.sourceRoot .classFiles c.layout.stagingDir
  let report ← copyAuxFiles c.sourceRoot c.auxFiles c.layout.stagingDir c.workingDir
  pure (classes, report)

/-- Packages a game; `elapsed` is the time that a clock shows at the end. -/
def run (c : Config) (archiver : Archiver) (elapsed : Nat) : Run Summary := do
  checkConfig c
  let layout := c.layout
  Run.say s!"Start packaging {layout.archiveName}"
  Run.work (prepare c)
  Run.say "Copying *.class"
  let (classes, report) ← Run.work (fillStaging c)
  Run.say s!"Package the file into the {layout.archiveName}"
  Run.request archiver layout.stagingDir layout.archivePath
  Run.say "Removing temporary files"
  Run.work (cleanupStaging layout.stagingDir)
  Run.say s!"Complete {layout.archiveName} packaging"
  Run.say "Copying jar files"
  let jars ← Run.work (collect c.sourceRoot .prebuiltArchives layout.destinationRoot)
  Run.work (Work.log .info
    s!"packaged {classes.length} class file(s) into {layout.archivePath} and copied {jars.length} pre-built archive(s)")
  pure ⟨layout.archivePath, classes.length, report, jars.length, elapsed⟩

/-- Accepts the configurations that a run would accept, and tells what the run would do. -/
def plan (c : Config) (fs : FileSystem) : Except Failure DryRunInfo := do
  c.validate fs
  .ok (.ofConfig c)

/-- The archiver that a configuration names, with programs started on a host. The timeout is for
programs only. -/
def archiverFor (host : Host) (c : Config) : Archiver :=
  match c.archiver with
  | .jar => jarArchiver (systemExecutor host (c.archiverTimeout.map (· * 1000)))
  | .zip => zipArchiver

end ClassPack
