import ClassPack.Process.Child

/-!
# Archiver — making one file out of a staged tree

* `Archiver`, whatever can do that;
* `jarArchiver`, which has the program `jar` do it and puts its failures into words.
-/

namespace ClassPack

/-- Makes an archive of what lies below a directory; the directory's own name is no part of it. -/
structure Archiver where
  pack : (staged archive : String) → Work Unit

/-- Makes the directories above an archive. -/
def makeArchiveDirs (archive : String) : Work Unit :=
  match Path.parent? (Utf8.encode archive) with
  | some parent => Work.files .io (FileSystem.createDirs parent)
  | none => pure ()

/-- The program that makes jars. -/
def jarProgram : String := "jar"

/-- The call that has `jar` make an archive. -/
def jarCall (staged archive : String) : Invocation :=
  ⟨jarProgram, ["cf", archive, "-C", staged, "."]⟩

/-- Has the program `jar` make the archive. -/
def jarArchiver (e : Executor) : Archiver where
  pack staged archive := do
    makeArchiveDirs archive
    let output ← Work.call e (jarCall staged archive)
    if output.status.isSuccess then Work.log .debug s!"{jarProgram} wrote {archive}"
    else throw (.archiverFailed jarProgram output.status output.diagnostic)

end ClassPack
