import ClassPack.Workshop

/-!
# Child — programs run beside this one

A child is what it does, step by step, and how it ends. It speaks through two pipes, one for
each stream. A pipe holds only so many bytes that nobody has read, and a child that prints into
a full pipe waits.

* `Child` and its `Act`s, and `Child.play`, what becomes of them if the pipes and the time are
  bounded;
* `Host`, the programs that can be started, and `Host.start`, which looks for one;
* `Executor`, whatever runs programs for us, and `systemExecutor`, which starts them on a host:
  without a timeout it reads while the child runs, with one it reads only after the end.
-/

namespace ClassPack

/-! ## Children -/

/-- The streams that a child prints to. -/
inductive Stream where
  | stdout
  | stderr
  deriving DecidableEq, Repr

/-- One thing that a child does. -/
inductive Act where
  | print (stream : Stream) (bytes : Bytes)
  /-- Lets time go by, in milliseconds. -/
  | pause (time : Nat)
  /-- Writes a file; if that is refused, the child goes on. -/
  | store (path : Path) (bytes : Bytes)
  deriving DecidableEq, Repr

/-- A child: what it does, and how it ends if nobody stops it. -/
structure Child where
  acts : List Act
  status : WaitStatus
  deriving DecidableEq, Repr

/-- How far a child has come. -/
structure Progress where
  elapsed : Nat
  stdout : Bytes
  stderr : Bytes
  files : FileSystem

namespace Progress

/-- What was printed to a stream. -/
def printed (p : Progress) : Stream → Bytes
  | .stdout => p.stdout
  | .stderr => p.stderr

/-- More printed to a stream. -/
def print (p : Progress) (stream : Stream) (bytes : Bytes) : Progress :=
  match stream with
  | .stdout => { p with stdout := p.stdout ++ bytes }
  | .stderr => { p with stderr := p.stderr ++ bytes }

end Progress

/-- Whether a number is above a bound, if there is one. -/
def isBeyond (n : Nat) : Option Nat → Bool
  | some bound => bound < n
  | none => false

/-- Lets a child act until it ends, its time is over or it waits for a pipe; also tells whether
it came to its end. `capacity` is what a pipe holds that nobody reads; without one, somebody
reads at once. -/
def Child.play (capacity deadline : Option Nat) : List Act → Progress → Progress × Bool
  | [], p => (p, true)
  | .pause time :: rest, p =>
      let later := { p with elapsed := p.elapsed + time }
      if isBeyond later.elapsed deadline then (later, false) else play capacity deadline rest later
  | .print stream bytes :: rest, p =>
      let spoken := p.print stream bytes
      if isBeyond (spoken.printed stream).length capacity then (p, false)
      else play capacity deadline rest spoken
  | .store path bytes :: rest, p =>
      match FileSystem.writeFile path (.plain bytes) p.files with
      | .ok () fs | .error _ fs => play capacity deadline rest { p with files := fs }

/-! ## Hosts -/

/-- The programs that can be started: files, some of which are programs. -/
structure Host where
  files : FileSystem
  /-- The directories in which programs are looked for that are given by name only. -/
  searchPath : List Path
  /-- What the file at a place does as a program. -/
  program? : Place → Option (List String → Child)

namespace Host

/-- The program under a path. -/
def programAt (h : Host) (p : Path) : Except IoFault (List String → Child) := do
  match ← h.files.lookup p with
  | (standing, .file _) =>
      match h.program? standing.place with
      | some program => .ok program
      | none => .error (.os .permissionDenied)
  | _ => .error (.os .permissionDenied)

/-- Looks through directories for a program. One that is there but cannot be run is the reason given
if none is found. -/
def search (h : Host) (name : Path) (reason : IoFault) :
    List Path → Except IoFault (List String → Child)
  | [] => .error reason
  | dir :: rest =>
      match h.programAt (dir.join name) with
      | .ok program => .ok program
      | .error (.os .noEntry) | .error (.os .notDirectory) => search h name reason rest
      | .error (.os .permissionDenied) => search h name (.os .permissionDenied) rest
      | .error e => .error e

/-- Starts a program: one with a slash in it is a path, any other a name to be looked for. -/
def start (h : Host) (call : Invocation) : Except IoFault Child := do
  let name : Path := Utf8.encode call.program
  if 0 ∈ name ∨ call.args.any (fun a => (Utf8.encode a).contains 0) then
    throw (.stated "nul byte found in provided data")
  let program ←
    if name = [] then .error (.os .noEntry)
    else if slash ∈ name then h.programAt name
    else h.search name (.os .noEntry) h.searchPath
  .ok (program call.args)

/-- A host with the given programs in `/bin`, and nothing else. -/
def ofPrograms (programs : List (String × (List String → Child))) : Host :=
  let named := programs.filterMap fun (name, program) =>
    (Name.ofBytes? (Utf8.encode name)).map (·, program)
  let bin : Place := (Name.ofBytes? (Utf8.encode "bin")).toList
  let root := bin.foldl (fun fs n => fs.put [] n .directory) (FileSystem.empty {})
  { files := named.foldl (fun fs (n, _) => fs.put bin n (.file (.plain []))) root
    searchPath := [Utf8.encode "/bin"]
    program? := fun place => (named.find? fun (n, _) => place == bin ++ [n]).map (·.2) }

end Host

/-! ## Executors -/

/-- Whatever runs programs: what it puts into the log before, and what comes of the program. -/
structure Executor where
  announce : Invocation → List LogRecord
  run : Invocation → FileSystem → Except Failure Output × FileSystem

/-- How many bytes a pipe holds that nobody has read. -/
def pipeCapacity : Nat := 65536

/-- A program and its arguments as one text. -/
def Invocation.text (call : Invocation) : String := call.program ++ " " ++ " ".intercalate call.args

/-- Runs programs on a host, for at most so many milliseconds if a timeout is given. -/
def systemExecutor (host : Host) (timeout : Option Nat) : Executor where
  announce call := [⟨.debug, s!"running {call.text}"⟩]
  run call fs :=
    match host.start call with
    | .error e => (.error (.spawnFailed call.program e), fs)
    | .ok child =>
        let start : Progress := ⟨0, [], [], fs⟩
        -- With a timeout nobody reads before the end, so the pipes have to hold it all.
        let (p, ended) := Child.play (timeout.map fun _ => pipeCapacity) timeout child.acts start
        match timeout, ended with
        | some time, false => (.error (.archiverTimeout call.program (time / 1000)), p.files)
        | _, _ => (.ok ⟨child.status, p.stdout, p.stderr⟩, p.files)

/-- Runs a program in the workshop and notes the call. -/
def Work.call (e : Executor) (call : Invocation) : Work Output := fun w =>
  let noted := { w with log := w.log ++ e.announce call, calls := w.calls ++ [call] }
  match e.run call w.files with
  | (.ok output, fs) => .ok output { noted with files := fs }
  | (.error failure, fs) => .error failure { noted with files := fs }

end ClassPack
