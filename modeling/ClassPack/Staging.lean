import ClassPack.Workshop

/-!
# Staging — directories that come and go, and copying into them

* `removeDir` and `recreateDir`, with failures in the words of a run;
* `prepareStaging` and `cleanupStaging`, the two ends of the staging directory's life: it is made
  afresh, tried out with a scratch file, filled by others, and taken away;
* `copyFile`, which makes the directories above its target.
-/

namespace ClassPack

/-- The name of the scratch file that shows whether a staging directory can be written to. -/
def scratchName : String := ".pz-extract-write-test"

/-- What is written into the scratch file. -/
def scratchText : String := "write check"

/-- Takes away a directory tree, if it is there. -/
def removeDir (path : String) : Work Unit :=
  Work.files (.removeFailed path) (FileSystem.removeTreeIfThere (Utf8.encode path))

/-- Takes away a directory tree, if it is there, and makes the directory anew. -/
def recreateDir (path : String) : Work Unit := do
  removeDir path
  Work.files .io (FileSystem.createDirs (Utf8.encode path))

/-- Makes an empty staging directory and tries whether it can be written to. -/
def prepareStaging (path : String) : Work Unit := do
  recreateDir path
  let scratch := Utf8.encode (joinText path scratchName)
  Work.files (fun e => .notWritable path e.message)
    (FileSystem.writeFile scratch (.plain (Utf8.encode scratchText)))
  Work.files .io (FileSystem.atomically (·.unlink scratch))

/-- Takes the staging directory away. -/
def cleanupStaging (path : String) : Work Unit := removeDir path

/-- Copies a file; directories missing above the target are made first. -/
def copyFile (source target : String) : Work Unit := do
  Work.log .trace s!"copy {source} -> {target}"
  match Path.parent? (Utf8.encode target) with
  | some parent => Work.files (.copyFailed source target) (FileSystem.createDirs parent)
  | none => pure ()
  Work.files (.copyFailed source target)
    (FileSystem.copy (Utf8.encode source) (Utf8.encode target))

end ClassPack
