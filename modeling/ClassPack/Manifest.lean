import ClassPack.Staging

/-!
# Manifest — files that no pattern finds but that always ship

* `AuxFile`, a file of the game with the place where its copy goes, and `defaultManifest`;
* `checkRelative` and `validateManifest`, which keep such places below their roots;
* `copyAuxFiles`, which copies them and leaves a file alone that is its own target.
-/

namespace ClassPack

/-- Where a copy goes. -/
inductive Placement where
  /-- Into the staging directory, and so into the archive. -/
  | staged
  /-- Into the working directory. -/
  | workingDir
  deriving DecidableEq, Repr

/-- A file to be copied as it is. -/
structure AuxFile where
  /-- The path below the source root. -/
  source : String
  /-- The path of the copy below the root that `placement` says. -/
  target : String
  placement : Placement
  deriving DecidableEq, Repr

namespace AuxFile

/-- A file that keeps its path. -/
def samePath (path : String) (placement : Placement) : AuxFile := ⟨path, path, placement⟩

/-- The path of the copy. -/
def destination (f : AuxFile) (stagingDir workingDir : String) : String :=
  match f.placement with
  | .staged => joinText stagingDir f.target
  | .workingDir => joinText workingDir f.target

end AuxFile

/-- The files that ship with every archive: the bytecode of the Lua standard library inside it, some
Lua sources beside it. -/
def defaultManifest : List AuxFile :=
  [.samePath "stdlib.lbc" .staged,
   .samePath "serialize.lua" .workingDir,
   .samePath "media/lua/shared/defines.lua" .workingDir,
   .samePath "media/lua/shared/Sandbox/Apocalypse.lua" .workingDir]

/-! ## Checking -/

/-- Whether a path stays plainly below the directory it is read from: it has a name in it, and
nothing that leads elsewhere. -/
def isPlainlyBelow (path : String) : Bool :=
  !Blank.isBlank path && (componentsOf path).any (·.isName) &&
    (componentsOf path).all (·.isDownward)

/-- Accepts only paths that stay plainly below the directory they are read from. -/
def checkRelative (path what : String) : Except Failure Unit :=
  if isPlainlyBelow path then .ok () else .error (.invalidConfig (.notRelative what path))

/-- Accepts only files that come from below the source root and go below theirs. -/
def validateManifest : List AuxFile → Except Failure Unit
  | [] => .ok ()
  | f :: rest => do
      checkRelative f.source "manifest source"
      checkRelative f.target "manifest destination"
      validateManifest rest

/-! ## Copying -/

/-- How many files went where. -/
structure AuxReport where
  staged : Nat := 0
  workingDir : Nat := 0
  deriving DecidableEq, Repr

/-- Counts one more file. -/
def AuxReport.count (report : AuxReport) : Placement → AuxReport
  | .staged => { report with staged := report.staged + 1 }
  | .workingDir => { report with workingDir := report.workingDir + 1 }

/-- Whether two paths are known to lead to the same place. -/
def isSameFile (fs : FileSystem) (a b : String) : Bool :=
  match fs.canonical? a, fs.canonical? b with
  | some a, some b => a == b
  | _, _ => false

/-- Copies one file of a manifest, unless it is its own target: copied onto itself it would be
empty. -/
def copyAuxFile (sourceRoot stagingDir workingDir : String) (f : AuxFile) : Work Unit := do
  let source := joinText sourceRoot f.source
  let target := f.destination stagingDir workingDir
  if ← Work.view (isSameFile · source target) then
    Work.log .debug s!"auxiliary file {f.source} is already at {target}"
  else
    Work.log .debug s!"auxiliary file {f.source} -> {target}"
    copyFile source target

/-- Copies the files of a manifest one after the other, and counts them. -/
def copyAuxFiles (sourceRoot : String) (files : List AuxFile) (stagingDir workingDir : String) :
    Work AuxReport :=
  go {} files
where
  /-- Copies the files that are left, with the count of those before them. -/
  go (report : AuxReport) : List AuxFile → Work AuxReport
    | [] => pure report
    | f :: rest => do
        let report := report.count f.placement
        copyAuxFile sourceRoot stagingDir workingDir f
        go report rest

end ClassPack
