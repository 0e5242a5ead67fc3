import ClassPack.FileSystem.Calls

/-!
# Description — a file system from lines of text

A line describes one entry: `dir PATH`, `file PATH TEXT` or `link PATH TARGET`, fields set apart by
tabs. A line `in PATH` names the working directory. Missing directories are made, and whatever
cannot be made is left out.

* `FileSystem.addLine`, one line, and `FileSystem.ofLines`, all of them.
-/

namespace ClassPack
namespace FileSystem

/-- What calls leave, whether they go well or not. -/
def after (calls : Calls Unit) (fs : FileSystem) : FileSystem :=
  match calls fs with
  | .ok _ left | .error _ left => left

/-- Makes the directories above a path, and then does more. -/
def withDirsAbove (p : Path) (calls : Calls Unit) : Calls Unit := do
  createDirs ((Path.parent? p).getD [])
  calls

/-- The file system with what a line describes. -/
def addLine (fs : FileSystem) (line : String) : FileSystem :=
  match line.splitOn "\t" with
  | ["dir", path] => after (createDirs (Utf8.encode path)) fs
  | ["file", path, text] =>
      let p := Utf8.encode path
      after (withDirsAbove p (writeFile p (.plain (Utf8.encode text)))) fs
  | ["link", path, target] =>
      let p := Utf8.encode path
      after (withDirsAbove p (atomically (·.makeLink p (Utf8.encode target)))) fs
  | ["in", path] =>
      match fs.resolve (Utf8.encode path) with
      | .ok standing => { fs with workingDir := standing.place }
      | .error _ => fs
  | _ => fs

/-- The file system that lines describe. -/
def ofLines (lines : List String) : FileSystem := lines.foldl addLine (empty {})

end FileSystem
end ClassPack
