import ClassPack.Config

/-!
# Options — what can be said on the command line

* `Options`, the choices that a command line makes, each with its default;
* `Options.toConfig`, the configuration they amount to in a current directory;
* `Options.Consistent`, which choices can go together, and `Options.render`, arguments that make
  them.
-/

namespace ClassPack

/-- The choices that a command line makes. -/
structure Options where
  /-- The source root as an argument of its own. -/
  sourceArgument : Option String := none
  /-- The source root as the value of an option. -/
  source : Option String := none
  outDir : String := "lib"
  stagingDir : String := "zombie_classes"
  gameVersion : String := "42"
  archiveExtension : String := "jar"
  archiver : ArchiverKind := .jar
  /-- In seconds. -/
  archiverTimeout : Option Nat := none
  workingDir : Option String := none
  dryRun : Bool := false
  /-- How often more words were asked for; counting stops at 255. -/
  verbosity : Nat := 0
  quiet : Bool := false
  json : Bool := false
  deriving DecidableEq, Repr

namespace Options

/-- The source root, however it was given. -/
def sourceRoot (o : Options) : Option String := o.sourceArgument <|> o.source

/-- Whether progress lines are held back. -/
def isQuiet (o : Options) : Bool := o.quiet || o.json

/-- Whether all choices are the defaults; paths are compared by their components. -/
def isDefault (o : Options) : Bool :=
  componentsOf o.outDir == componentsOf ({} : Options).outDir &&
    { o with outDir := ({} : Options).outDir } == {}

/-- The configuration that the choices amount to in a current directory. A blank source root is
passed on as none at all. -/
def toConfig (o : Options) (currentDir : String) : Config where
  sourceRoot :=
    match o.sourceRoot with
    | some source => if Blank.isBlank source then "" else joinText currentDir source
    | none => ""
  workingDir :=
    match o.workingDir with
    | some dir => joinText currentDir dir
    | none => currentDir
  outDir := o.outDir
  stagingDirName := o.stagingDir
  version := o.gameVersion
  archiveExtension := o.archiveExtension
  archiver := o.archiver
  archiverTimeout := o.archiverTimeout

/-! ## The other way round -/

/-- Choices that exclude each other are not made together, and numbers are within their bounds. -/
def Consistent (o : Options) : Prop :=
  ¬ (o.sourceArgument.isSome ∧ o.source.isSome) ∧ ¬ (o.dryRun ∧ o.json) ∧
    ¬ (o.quiet ∧ 0 < o.verbosity) ∧ (∀ n ∈ o.archiverTimeout, 1 ≤ n ∧ n < UInt64.size) ∧
    o.verbosity ≤ 255

/-- The arguments before the source root, each a flag or an option with its value; defaults have
none. -/
def renderChoices (o : Options) : List String :=
  (o.source.map ("--source=" ++ ·)).toList ++
  (if o.outDir = ({} : Options).outDir then [] else ["--out-dir=" ++ o.outDir]) ++
  (if o.stagingDir = ({} : Options).stagingDir then [] else ["--staging-dir=" ++ o.stagingDir]) ++
  (if o.gameVersion = ({} : Options).gameVersion then [] else ["--game-version=" ++
    o.gameVersion]) ++
  (if o.archiveExtension = ({} : Options).archiveExtension then []
   else ["--archive-ext=" ++ o.archiveExtension]) ++
  (if o.archiver = ({} : Options).archiver then [] else ["--archiver=" ++ o.archiver.flagName]) ++
  (o.archiverTimeout.map fun n => "--archiver-timeout=" ++ toString n).toList ++
  (o.workingDir.map ("--working-dir=" ++ ·)).toList ++
  (if o.dryRun then ["--dry-run"] else []) ++
  List.replicate o.verbosity "-v" ++
  (if o.quiet then ["--quiet"] else []) ++
  (if o.json then ["--json"] else [])

/-- Arguments that make the choices, the source root last. -/
def render (o : Options) : List String :=
  o.renderChoices ++
    match o.sourceArgument with
    | some source => ["--", source]
    | none => []

end Options
end ClassPack
