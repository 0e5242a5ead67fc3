import ClassPack.Glob.Match
import ClassPack.Staging

/-!
# Artifact — families of files, found by pattern and copied

* `ArtifactPattern`, globs for the paths wanted and for those among them that are not, with the two
  families of a game, `classFiles` and `prebuiltArchives`;
* `Selector`, a pattern with its globs read;
* `findMatches`, the paths below a root that a pattern selects, in the order of a walk; hidden
  entries are passed over, links followed, and names that spell no text skipped;
* `collect`, which copies them to the same paths below another root.
-/

namespace ClassPack

/-! ## Patterns -/

/-- Globs for a family of files. -/
structure ArtifactPattern where
  /-- The glob that a path has to match. -/
  wanted : String
  /-- Globs that it must not match. -/
  unwanted : List String := []
  deriving DecidableEq, Repr

namespace ArtifactPattern

/-- Compiled class files. -/
def classFiles : ArtifactPattern := ⟨"**/*.class", []⟩

/-- Jars that came with the game, those of its own Java runtimes left out. -/
def prebuiltArchives : ArtifactPattern := ⟨"**/*.jar", ["jre/**/*.jar", "jre64/**/*.jar"]⟩

end ArtifactPattern

/-- A pattern with its globs read. -/
structure Selector where
  wanted : List Glob.Token
  unwanted : List (List Glob.Token)
  deriving DecidableEq, Repr

namespace Selector

/-- Whether a path is selected. -/
def selects (s : Selector) (path : String) : Bool :=
  Glob.isMatch s.wanted path && !s.unwanted.any (Glob.isMatch · path)

end Selector

/-- Reads one glob. -/
def readGlob (text : String) : Except Failure (List Glob.Token) :=
  match Glob.compile text with
  | .ok tokens => .ok tokens
  | .error fault => .error (.invalidPattern text fault.message)

/-- Reads the globs of a pattern, the wanted one first. -/
def ArtifactPattern.compile (p : ArtifactPattern) : Except Failure Selector := do
  let wanted ← readGlob p.wanted
  let unwanted ← p.unwanted.mapM readGlob
  .ok ⟨wanted, unwanted⟩

/-! ## Finding -/

/-- What comes before the first error, and that error. -/
def untilError {ε α : Type} : List (Except ε α) → List α × Option ε
  | [] => ([], none)
  | .error e :: _ => ([], some e)
  | .ok a :: rest => (a :: (untilError rest).1, (untilError rest).2)

/-- The relative path of a visited entry, if its names spell a text. -/
def Found.text? (f : Found) : Option String := Utf8.decode? f.names.relativePath

/-- All that a walk meets that passes over hidden entries. -/
def visits (fs : FileSystem) (root : String) : List (Except WalkFault Found) :=
  fs.walk (!·.isHidden) (Utf8.encode root)

/-- The relative paths of the files below a root that a pattern selects. -/
def findMatches (root : String) (pattern : ArtifactPattern) : Work (List String) := do
  let selector ← Work.ofExcept pattern.compile
  let (found, fault) ← Work.view fun fs => untilError (visits fs root)
  let files := found.filter (·.isFile)
  Work.logAll .trace ((files.filter (·.text?.isNone)).map fun file =>
    s!"skipping non-UTF-8 path {Utf8.lossy file.path}")
  match fault with
  | some fault => throw (.walk root fault)
  | none => pure ((files.filterMap Found.text?).filter selector.selects)

/-! ## Copying -/

/-- Copies files from below one root to the same paths below another. -/
def copyAll (sourceRoot targetRoot : String) : List String → Work Unit
  | [] => pure ()
  | path :: rest => do
      copyFile (joinText sourceRoot path) (joinText targetRoot path)
      copyAll sourceRoot targetRoot rest

/-- Copies the files that a pattern selects; all of them are found before the first is copied. -/
def collect (sourceRoot : String) (pattern : ArtifactPattern) (targetRoot : String) :
    Work (List String) := do
  let paths ← findMatches sourceRoot pattern
  Work.log .debug s!"{paths.length} file(s) match {pattern.wanted} under {sourceRoot}"
  copyAll sourceRoot targetRoot paths
  pure paths

end ClassPack
