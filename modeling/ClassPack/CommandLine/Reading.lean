import ClassPack.CommandLine.Options

/-!
# Reading — from arguments to options

Arguments are read from left to right, and the first thing wrong decides. An option takes its value
after `=`, directly behind its letter, or as the next argument; in the last case the value is stored
only when the argument after it has been recognised, so that a wrong value may be overtaken by an
unknown flag. Which choices exclude each other is asked at the very end.

* `UsageFault`, what can be wrong, and `Key`, what can be given;
* `Reading`, the state between two arguments, with its steps `flush`, `store` and `raise`;
* `Options.ofArgs`, the whole reading.
-/

namespace ClassPack

/-- Why arguments are not carried out. -/
inductive UsageFault where
  /-- Help was asked for. -/
  | displayHelp
  /-- The version was asked for. -/
  | displayVersion
  | unknownArgument
  | tooManyValues
  | invalidValue
  | argumentConflict
  | valueValidation
  deriving DecidableEq, Repr

namespace UsageFault

/-- The exit code: to ask for help is no mistake. -/
def exitCode : UsageFault → Nat
  | .displayHelp | .displayVersion => 0
  | _ => 2

end UsageFault

/-! ## What can be given -/

/-- Options, which take a value. -/
inductive ValueOption where
  | source
  | outDir
  | stagingDir
  | gameVersion
  | archiveExtension
  | archiver
  | archiverTimeout
  | workingDir
  /-- The argument that stands by itself. -/
  | sourceArgument
  deriving DecidableEq, Repr

/-- Flags, which take none. -/
inductive Flag where
  | dryRun
  | verbose
  | quiet
  | json
  | help
  | version
  deriving DecidableEq, Repr

/-- What can be given by name. -/
inductive Key where
  | option (o : ValueOption)
  | flag (f : Flag)
  deriving DecidableEq, Repr

/-- The names after two dashes. -/
def longKeys : List (String × Key) :=
  [("source", .option .source), ("out-dir", .option .outDir), ("staging-dir", .option .stagingDir),
   ("game-version", .option .gameVersion), ("archive-ext", .option .archiveExtension),
   ("archiver", .option .archiver), ("archiver-timeout", .option .archiverTimeout),
   ("working-dir", .option .workingDir), ("dry-run", .flag .dryRun), ("verbose", .flag .verbose),
   ("quiet", .flag .quiet), ("json", .flag .json), ("help", .flag .help),
   ("version", .flag .version)]

/-- The letters after one dash. -/
def shortKeys : List (Char × Key) :=
  [('s', .option .source), ('o', .option .outDir), ('C', .option .workingDir),
   ('v', .flag .verbose), ('q', .flag .quiet), ('h', .flag .help), ('V', .flag .version)]

/-! ## Values -/

/-- The kind of archiver that a word names. -/
def ArchiverKind.ofFlagName? (s : String) : Option ArchiverKind :=
  [ArchiverKind.jar, .zip].find? (·.flagName = s)

/-- The number that digits spell, after a plus sign or none, if it is from 1 to the greatest that
64 bits hold. -/
def secondsOf? (s : String) : Option Nat :=
  let digits :=
    match s.toList with
    | '+' :: rest => rest
    | cs => cs
  if digits ≠ [] ∧ digits.all (·.isDigit) then
    let n := digits.foldl (fun n c => 10 * n + (c.toNat - '0'.toNat)) 0
    if 1 ≤ n ∧ n < UInt64.size then some n else none
  else none

/-! ## Steps -/

/-- The state between two arguments. -/
structure Reading where
  options : Options := {}
  /-- What was stored. -/
  given : List Key := []
  /-- An option whose value is not stored yet, or has not come yet. -/
  pending : Option (ValueOption × Option String) := none
  /-- Whether the argument that stands by itself has come. -/
  argumentSeen : Bool := false

namespace Reading

/-- The options with a value set. -/
def setValue (o : Options) (key : ValueOption) (value : String) : Except UsageFault Options :=
  match key with
  | .source => .ok { o with source := some value }
  | .outDir => .ok { o with outDir := value }
  | .stagingDir => .ok { o with stagingDir := value }
  | .gameVersion => .ok { o with gameVersion := value }
  | .archiveExtension => .ok { o with archiveExtension := value }
  | .archiver =>
      match ArchiverKind.ofFlagName? value with
      | some kind => .ok { o with archiver := kind }
      | none => .error .invalidValue
  | .archiverTimeout =>
      match secondsOf? value with
      | some n => .ok { o with archiverTimeout := some n }
      | none => .error .valueValidation
  | .workingDir => .ok { o with workingDir := some value }
  | .sourceArgument => .ok { o with sourceArgument := some value }

/-- Stores a value; no option is stored twice. -/
def store (r : Reading) (key : ValueOption) (value : String) : Except UsageFault Reading :=
  if r.given.contains (.option key) then .error .argumentConflict
  else do
    let options ← setValue r.options key value
    .ok { r with options, given := .option key :: r.given }

/-- Stores what is pending. -/
def flush (r : Reading) : Except UsageFault Reading :=
  match r.pending with
  | none => .ok r
  | some (_, none) => .error .invalidValue
  | some (key, some value) => store { r with pending := none } key value

/-- Raises a flag; only one of them can be raised twice. -/
def raise (r : Reading) (flag : Flag) : Except UsageFault Reading := do
  let r ← r.flush
  let once (options : Options) : Except UsageFault Reading :=
    if r.given.contains (.flag flag) then .error .argumentConflict
    else .ok { r with options, given := .flag flag :: r.given }
  -- Even help comes only after what is pending has been stored.
  match flag with
  | .help => .error .displayHelp
  | .version => .error .displayVersion
  | .verbose =>
      .ok { r with
            options := { r.options with verbosity := min 255 (r.options.verbosity + 1) }
            given := .flag .verbose :: r.given }
  | .dryRun => once { r.options with dryRun := true }
  | .quiet => once { r.options with quiet := true }
  | .json => once { r.options with json := true }

/-- An option with its value in the same argument. -/
def attach (r : Reading) (key : ValueOption) (value : String) : Except UsageFault Reading := do
  let r ← r.flush
  r.store key value

/-- An option whose value is the next argument. -/
def await (r : Reading) (key : ValueOption) : Except UsageFault Reading := do
  let r ← r.flush
  .ok { r with pending := some (key, none) }

/-- An argument after two dashes. -/
def long (r : Reading) (text : List Char) : Except UsageFault Reading :=
  let name := String.ofList (text.takeWhile (· != '='))
  let value? : Option String :=
    match text.dropWhile (· != '=') with
    | [] => none
    | _ :: value => some (String.ofList value)
  match longKeys.lookup name, value? with
  | none, _ => .error .unknownArgument
  | some (.option key), some value => r.attach key value
  | some (.option key), none => r.await key
  | some (.flag _), some _ => .error .tooManyValues
  | some (.flag flag), none => r.raise flag

/-- Letters after one dash: flags, and at the end perhaps an option. -/
def letters (r : Reading) : List Char → Except UsageFault Reading
  | [] => .ok r
  | c :: rest =>
      match shortKeys.lookup c with
      | none => .error .unknownArgument
      | some (.flag flag) =>
          match r.raise flag with
          | .ok r => letters r rest
          | .error e => .error e
      | some (.option key) =>
          match rest with
          | [] => r.await key
          | '=' :: value => r.attach key (String.ofList value)
          | value => r.attach key (String.ofList value)

/-- An argument that stands by itself; there is room for one. -/
def argument (r : Reading) (text : String) : Except UsageFault Reading :=
  if r.argumentSeen then .error .unknownArgument
  else do
    let r ← r.flush
    .ok { r with pending := some (.sourceArgument, some text), argumentSeen := true }

/-- Reads arguments; after two dashes alone, `plain`, each of them stands by itself. -/
def readAll (plain : Bool) (r : Reading) : List String → Except UsageFault Reading
  | [] => r.flush
  | text :: rest => do
      if plain then readAll true (← r.argument text) rest
      else
        match text.toList with
        | ['-', '-'] => readAll true r rest
        | '-' :: '-' :: name => readAll false (← r.long name) rest
        | '-' :: c :: more => readAll false (← r.letters (c :: more)) rest
        | _ =>
            -- An option that waits for its value takes the argument, whatever it says.
            match r.pending with
            | some (key, none) => readAll false { r with pending := some (key, some text) } rest
            | _ => readAll false (← r.argument text) rest

/-- Whether choices were made that exclude each other. -/
def hasConflict (r : Reading) : Bool :=
  let both (a b : Key) := r.given.contains a && r.given.contains b
  both (.option .sourceArgument) (.option .source) || both (.flag .dryRun) (.flag .json) ||
    both (.flag .quiet) (.flag .verbose)

end Reading

/-- Reads the arguments after the program's name. -/
def Options.ofArgs (args : List String) : Except UsageFault Options := do
  let r ← Reading.readAll false {} args
  if r.hasConflict then .error .argumentConflict else .ok r.options

end ClassPack
