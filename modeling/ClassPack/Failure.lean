import ClassPack.FileSystem.Walk
import ClassPack.Process.Status

/-!
# Failure — why a run stops

Every failure is final. Those of the configuration are found before anything changes and have an
exit code of their own, so that a caller can tell "nothing happened" from "it broke off half-way".

* `ConfigFault`, `ArchiveFault` and `Failure`, the causes;
* `Failure.message`, the words, and `Failure.cause?`, the words for what lies behind;
* `Failure.isConfigFault` and `Failure.exitCode`.
-/

namespace ClassPack

/-- Why a configuration is rejected. -/
inductive ConfigFault where
  /-- The working directory is the source root or lies below it. -/
  | workingDirInside (workingDir sourceRoot : String)
  /-- The output directory is the source root or lies above it. -/
  | outputHoldsSource (destination : String)
  /-- A path is not plainly below the directory it is read from. -/
  | notRelative (what path : String)
  /-- The staging directory is not given by one name. -/
  | stagingName (name : String)
  /-- A part of the archive's name is blank, or holds white space or a separator. -/
  | badToken (what value : String)
  /-- The bytes of the current directory spell no text. -/
  | strangeCurrentDir (path : Path)
  /-- A reason of which only the words are known. -/
  | stated (reason : String)
  deriving DecidableEq

namespace ConfigFault

/-- The words for a fault. -/
def message : ConfigFault → String
  | .workingDirInside workingDir sourceRoot =>
      s!"working directory {workingDir} is inside the source root {sourceRoot}; run from outside the game directory"
  | .outputHoldsSource destination =>
      s!"output directory {destination} contains the source root and would be deleted"
  | .notRelative what path => s!"{what} `{path}` must be a non-empty relative path without `..`"
  | .stagingName name => s!"staging directory `{name}` must be a single directory name"
  | .badToken what value => s!"{what} `{value}` must be non-empty without separators or spaces"
  | .strangeCurrentDir path =>
      s!"current directory is not valid UTF-8: PathBuf contains invalid UTF-8: {Utf8.lossy path}"
  | .stated reason => reason

end ConfigFault

/-- Why an archive cannot be written or read. -/
inductive ArchiveFault where
  | entryNotFound
  | io
  deriving DecidableEq

namespace ArchiveFault

/-- The words for a fault. -/
def message : ArchiveFault → String
  | .entryNotFound => "specified file not found in archive"
  | .io => "i/o error"

end ArchiveFault

/-- Why a run stops. -/
inductive Failure where
  | sourceUnset
  | sourceMissing (path : String)
  | invalidConfig (fault : ConfigFault)
  | invalidPattern (pattern reason : String)
  | walk (root : String) (fault : WalkFault)
  | copyFailed (source target : String) (fault : IoFault)
  | removeFailed (path : String) (fault : IoFault)
  | notWritable (path reason : String)
  | spawnFailed (program : String) (fault : IoFault)
  | archiverFailed (program : String) (status : WaitStatus) (output : String)
  | archiverTimeout (program : String) (seconds : Nat)
  | archive (fault : ArchiveFault)
  | io (fault : IoFault)
  | writeFailed (fault : IoFault)
  deriving DecidableEq

namespace Failure

/-- The words for a failure. -/
def message : Failure → String
  | .sourceUnset => "Project Zomboid directory is not set; pass it as SOURCE or with --source"
  | .sourceMissing path => s!"Project Zomboid directory {path} does not exist or is not a directory"
  | .invalidConfig fault => s!"invalid configuration: {fault.message}"
  | .invalidPattern pattern reason => s!"invalid glob pattern {pattern}: {reason}"
  | .walk root _ => s!"failed to walk {root}"
  | .copyFailed source target _ => s!"failed to copy {source} to {target}"
  | .removeFailed path _ => s!"failed to remove {path}"
  | .notWritable path reason => s!"staging directory {path} is not writable: {reason}"
  | .spawnFailed program _ => s!"failed to run {program}; is it installed and on PATH?"
  | .archiverFailed program status output => s!"{program} exited with {status.message}: {output}"
  | .archiverTimeout program seconds => s!"{program} timed out after {seconds} seconds"
  | .archive fault => s!"zip archive error: {fault.message}"
  | .io fault => s!"I/O error: {fault.message}"
  | .writeFailed _ => "failed to write output"

/-- The words for what lies behind a failure. -/
def cause? : Failure → Option String
  | .walk _ fault => some fault.message
  | .copyFailed _ _ fault | .removeFailed _ fault | .spawnFailed _ fault | .io fault
  | .writeFailed fault => some fault.message
  | .archive fault => some fault.message
  | _ => none

/-- Whether the configuration is to blame. -/
def isConfigFault : Failure → Bool
  | .sourceUnset | .sourceMissing _ | .invalidConfig _ => true
  | _ => false

/-- The exit code that tells of a failure. -/
def exitCode (f : Failure) : Nat := if f.isConfigFault then 2 else 1

end Failure
end ClassPack
