import ClassPack.CommandLine.Program
import ClassPack.FileSystem.Description
import ClassPack.Process.Shell

/-!
# Main — the command

Reads the lines that describe a file system, carries out the arguments there, and passes on what the
run has to say.
-/

open ClassPack

/-- The lines of a stream, as long as there are any. -/
partial def readLines (input : IO.FS.Stream) (lines : List String) : IO (List String) := do
  let line ← input.getLine
  if line.isEmpty then return lines.reverse
  readLines input (String.ofList (line.toList.filter (· != '\n')) :: lines)

/-- Carries out a command line. -/
def main (args : List String) : IO UInt32 := do
  match Options.ofArgs args with
  | .error fault => return UInt32.ofNat fault.exitCode
  | .ok options =>
      let started ← IO.monoMsNow
      let files := FileSystem.ofLines (← readLines (← IO.getStdin) [])
      let now ← IO.monoMsNow
      let ending := perform options standardHost files {} (now - started)
      (← IO.getStdout).putStr (Utf8.lossy ending.stdout.taken)
      for line in ending.stderr do
        (← IO.getStderr).putStr (line ++ "\n")
      return UInt32.ofNat ending.exitCode
