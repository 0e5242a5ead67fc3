import ClassPack.Path.Text

/-!
# Fault — why a call on the file system is refused

* `Errno`, the reasons that the system has a number for;
* `IoFault`, those and the few that arise outside the system;
* `IoFault.message`, the words for each.
-/

namespace ClassPack

/-- A numbered reason for which the system refuses a call. -/
inductive Errno where
  | noEntry
  | permissionDenied
  | busy
  | exists
  | notDirectory
  | isDirectory
  | invalid
  | noSpace
  | nameTooLong
  | notEmpty
  | tooManyLinks
  deriving DecidableEq, Repr

namespace Errno

/-- The number of a reason. -/
def number : Errno → Nat
  | .noEntry => 2
  | .permissionDenied => 13
  | .busy => 16
  | .exists => 17
  | .notDirectory => 20
  | .isDirectory => 21
  | .invalid => 22
  | .noSpace => 28
  | .nameTooLong => 36
  | .notEmpty => 39
  | .tooManyLinks => 40

/-- The system's words for a reason. -/
def words : Errno → String
  | .noEntry => "No such file or directory"
  | .permissionDenied => "Permission denied"
  | .busy => "Device or resource busy"
  | .exists => "File exists"
  | .notDirectory => "Not a directory"
  | .isDirectory => "Is a directory"
  | .invalid => "Invalid argument"
  | .noSpace => "No space left on device"
  | .nameTooLong => "File name too long"
  | .notEmpty => "Directory not empty"
  | .tooManyLinks => "Too many levels of symbolic links"

/-- The words and the number. -/
def message (e : Errno) : String := s!"{e.words} (os error {e.number})"

end Errno

/-- Why an input or output operation failed. -/
inductive IoFault where
  /-- The system refused a call. -/
  | os (errno : Errno)
  /-- A path text holds a zero byte, which no call can take. -/
  | zeroByte
  /-- A file to be copied is no regular file. -/
  | notRegular
  /-- The bytes of a path spell no text. -/
  | strangePath (path : Path)
  /-- A file is larger than an entry of an archive. -/
  | largeFile
  /-- A failure of which only the words are known. -/
  | stated (text : String)
  deriving DecidableEq, Repr

namespace IoFault

/-- The words for a failure. -/
def message : IoFault → String
  | .os e => e.message
  | .zeroByte => "file name contained an unexpected NUL byte"
  | .notRegular => "the source path is neither a regular file nor a symlink to a regular file"
  | .strangePath path => s!"non-UTF-8 path in staging tree: {Utf8.lossy path}"
  | .largeFile => "Large file option has not been set"
  | .stated text => text

end IoFault
end ClassPack
