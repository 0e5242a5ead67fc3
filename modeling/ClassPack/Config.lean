import ClassPack.Manifest

/-!
# Config — what a run is asked to do

* `Config` with its defaults, and `Layout`, the paths of the output that follow from it;
* `Config.validate`, the checks made before anything changes. The source root is only read from, so
  the output may neither land in it nor take it away.
-/

namespace ClassPack

/-- What makes the archive. -/
inductive ArchiverKind where
  /-- The program `jar`. -/
  | jar
  /-- This library itself. -/
  | zip
  deriving DecidableEq, Repr

/-- The word for a kind on the command line. -/
def ArchiverKind.flagName : ArchiverKind → String
  | .jar => "jar"
  | .zip => "zip"

/-- What a run is asked to do. -/
structure Config where
  /-- Where the game is installed; empty if that is not known. -/
  sourceRoot : String := ""
  /-- Where relative output paths are read from. -/
  workingDir : String
  /-- The output directory, as read from the working directory. -/
  outDir : String := "lib"
  /-- The name of the staging directory inside the output directory. -/
  stagingDirName : String := "zombie_classes"
  version : String := "42"
  archiveExtension : String := "jar"
  archiver : ArchiverKind := .jar
  /-- After how many seconds the program `jar` is stopped; never, if not given. -/
  archiverTimeout : Option Nat := none
  auxFiles : List AuxFile := defaultManifest
  deriving DecidableEq, Repr

/-- The paths of the output. -/
structure Layout where
  /-- The directory that is made anew by every run. -/
  destinationRoot : String
  /-- The directory whose content becomes the archive. -/
  stagingDir : String
  archiveName : String
  archivePath : String
  deriving DecidableEq, Repr

/-- The name of the archive of a version. -/
def archiveFileName (version extension : String) : String := s!"b{version}.{extension}"

namespace Config

/-- The paths of the output that a configuration asks for. -/
def layout (c : Config) : Layout :=
  let destinationRoot := joinText c.workingDir c.outDir
  let archiveName := archiveFileName c.version c.archiveExtension
  { destinationRoot
    stagingDir := joinText destinationRoot c.stagingDirName
    archiveName
    archivePath := joinText destinationRoot archiveName }

/-! ## Checking -/

/-- The text of a place without links, or the path as it is if it leads nowhere. -/
def resolved (fs : FileSystem) (path : String) : String := (fs.canonical? path).getD path

/-- Whether a path, compared by components, starts with another. -/
def isInside (path root : String) : Bool := Path.startsWith (Utf8.encode path) (Utf8.encode root)

/-- Whether a character may stand in a part of a file name. -/
def isTokenChar (c : Char) : Bool := c != '/' && c != '\\' && !Blank.isBlankChar c

/-- Accepts only what can be a part of a file name. -/
def checkToken (value what : String) : Except Failure Unit :=
  if !Blank.isBlank value && value.toList.all isTokenChar then .ok ()
  else .error (.invalidConfig (.badToken what value))

/-- Accepts only a single name. -/
def checkStagingName (name : String) : Except Failure Unit :=
  match componentsOf name with
  | [.name _] => .ok ()
  | _ => .error (.invalidConfig (.stagingName name))

/-- Checks a configuration against the file system as it is before the run. -/
def validate (c : Config) (fs : FileSystem) : Except Failure Unit := do
  if Blank.isBlank c.sourceRoot then throw .sourceUnset
  if !fs.isDir (Utf8.encode c.sourceRoot) then throw (.sourceMissing c.sourceRoot)
  let sourceRoot := resolved fs c.sourceRoot
  let workingDir := resolved fs c.workingDir
  if isInside workingDir sourceRoot then
    throw (.invalidConfig (.workingDirInside workingDir sourceRoot))
  checkRelative c.outDir "output directory"
  let destination := joinText workingDir c.outDir
  if isInside sourceRoot destination then
    throw (.invalidConfig (.outputHoldsSource destination))
  checkStagingName c.stagingDirName
  checkToken c.version "version"
  checkToken c.archiveExtension "archive extension"
  validateManifest c.auxFiles

end Config
end ClassPack
