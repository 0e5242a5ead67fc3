import ClassPack.CommandLine.Program
import ClassPack.Proofs.Completing
import ClassPack.Proofs.Json.ReadingBack
import ClassPack.Proofs.Planning
import ClassPack.Proofs.Telling

/-!
# Endings — what a caller of the program can rely on

* `told_intercalate` — a text of several lines is told as the lines are;
* `Options.closing` — the lines that close a run which went well, and `report_of_endless`, that
  they are told;
* `Options.heard` — what of a run gets to the standard output;
* `perform_of_plan`, `perform_of_run` — how a plan ends, and a run;
* `Ending.Tells` — what an exit code stands for;
* `perform_answers` — the exit code and all of the standard output, whatever the options, the files
  and the archiver.
-/

namespace ClassPack

open FileSystem

variable {o : Options} {host : Host} {fs : FileSystem} {stdout : Sink} {elapsed : Nat}
  {cwd : String}

/-! ## Closing lines -/

/-- A text of several lines is told as the lines are. -/
theorem told_intercalate (line : String) (lines : List String) :
    told ["\n".intercalate (line :: lines)] = told (line :: lines) := by
  induction lines generalizing line with
  | nil => simp
  | cons next rest ih =>
      have later := ih next
      rw [told_cons, told_nil, List.append_nil] at later
      rw [String.intercalate_cons_cons, told_cons, told_nil, List.append_nil, String.append_assoc,
        Utf8.encode_append, later]
      rfl

theorem told_displayText (summary : Summary) : told [summary.displayText] = told summary.lines :=
  told_intercalate ..

/-- The lines that close a run which went well. -/
def Options.closing (o : Options) (summary : Summary) : List String :=
  if o.json then [summary.json.render]
  else if o.quiet then []
  else (if 0 < o.verbosity then summary.lines else []) ++ [usedTimeLine summary.elapsed]

/-- A sink that takes all bytes takes the closing lines, so that nothing fails any more. -/
theorem report_of_endless (endless : stdout.room = none) (summary : Summary) :
    report o summary stdout = ({ stdout with taken := stdout.taken ++ told (o.closing summary) },
      none) := by
  unfold report Options.closing
  split
  · rw [Sink.offerLine_of_endless endless]
  · split
    · simp
    · split
      · have same : told [summary.displayText, usedTimeLine summary.elapsed] =
            told (summary.lines ++ [usedTimeLine summary.elapsed]) := by
          rw [told_append, ← told_displayText, ← told_append, List.singleton_append]
        show ([summary.displayText, usedTimeLine summary.elapsed].foldl Sink.writeLine stdout,
          none) = _
        rw [Sink.foldl_writeLine_of_endless endless, same]
      · show ([usedTimeLine summary.elapsed].foldl Sink.writeLine stdout, none) = _
        rw [Sink.foldl_writeLine_of_endless endless, List.nil_append]

/-! ## The current directory -/

/-- A current directory has a text if it stands and its path is one. -/
theorem currentDir_eq_ok : currentDir fs = .ok cwd ↔
    fs.at? fs.workingDir = some .directory ∧ Utf8.decode? fs.workingDir.path = some cwd := by
  unfold currentDir
  rw [← isDirectoryAt_iff]
  split
  · rename_i stands
    cases Utf8.decode? fs.workingDir.path <;> simp [stands]
  · rename_i gone
    simp [gone]

theorem currentDir_of_gone (gone : fs.at? fs.workingDir ≠ some .directory) :
    currentDir fs = .error (.io (.os .noEntry)) := by
  unfold currentDir
  rw [if_neg]
  rwa [isDirectoryAt_iff]

/-- Without a current directory nothing is done. -/
theorem perform_of_gone {e : Failure} (gone : currentDir fs = .error e) :
    perform o host fs stdout elapsed = ending o (some e) stdout { files := fs } := by
  unfold perform
  rw [gone]

/-! ## Plans and runs -/

/-- A plan is told if the configuration is accepted. -/
theorem perform_of_plan (here : currentDir fs = .ok cwd) (dry : o.dryRun = true) :
    perform o host fs stdout elapsed =
      match plan (o.toConfig cwd) fs with
      | .ok info => ending o none (stdout.writeLine info.planText) { files := fs }
      | .error e => ending o (some e) stdout { files := fs } := by
  unfold perform
  cases planned : plan (o.toConfig cwd) fs <;> simp [here, dry, planned]

/-- What a run tells, if somebody listens. -/
def Options.heard (o : Options) (result : EStateM.Result Failure Session Summary) : Bytes :=
  (if o.isQuiet then [] else (leftBy result).out.taken) ++
    match result with
    | .ok summary _ => told (o.closing summary)
    | .error _ _ => []

/-- With `--json` only the summary is heard, quietly nothing, and else the progress lines and what
closes them. -/
theorem Options.heard_eq (o : Options) (result : EStateM.Result Failure Session Summary) :
    o.heard result =
      if o.json then
        match result with
        | .ok summary _ => told [summary.json.render]
        | .error _ _ => []
      else if o.quiet then []
      else (leftBy result).out.taken ++
        match result with
        | .ok summary _ =>
            told ((if 0 < o.verbosity then summary.lines else []) ++ [usedTimeLine summary.elapsed])
        | .error _ _ => [] := by
  unfold heard closing isQuiet
  cases result <;> cases o.json <;> cases o.quiet <;> simp

/-- A run is told to whoever listens, and closed if it goes well. -/
theorem perform_of_run (here : currentDir fs = .ok cwd) (earnest : o.dryRun = false)
    (endless : stdout.room = none) {result : EStateM.Result Failure Session Summary}
    (ran : run (o.toConfig cwd) (archiverFor host (o.toConfig cwd)) elapsed (.opening fs) =
      result) :
    perform o host fs stdout elapsed =
      ending o (failureOf? result) { stdout with taken := stdout.taken ++ o.heard result }
        (leftBy result).workshop := by
  -- Whether progress lines are held back only decides whom they are told to.
  have heard : run (o.toConfig cwd) (archiverFor host (o.toConfig cwd)) elapsed
      { workshop := { files := fs }, out := if o.isQuiet then {} else stdout } =
        toldTo (if o.isQuiet then (leftBy result).out
          else { stdout with taken := stdout.taken ++ (leftBy result).out.taken }) result := by
    split
    · cases result <;> exact ran
    · rw [← ran]
      exact (deaf_run _ _ _).endless (.opening fs) endless
  unfold perform Options.heard
  simp only [here, earnest, heard]
  cases quiet : o.isQuiet with
  | true => cases result <;> simp [toldTo, report_of_endless endless]
  | false => cases result <;> simp [toldTo, report_of_endless, endless]

/-! ## The program -/

theorem exitCode_eq_two_iff {e : Failure} : e.exitCode = 2 ↔ e.isConfigFault = true := by
  unfold Failure.exitCode
  split <;> simp_all

theorem exitCode_pos_le_two (e : Failure) : 0 < e.exitCode ∧ e.exitCode ≤ 2 := by
  unfold Failure.exitCode
  split <;> simp

/-- A run that fails ends with exit code 2 if the configuration is rejected, and only then. -/
theorem exitCode_of_run {c : Config} {e : Failure} {s' : Session}
    (failed : run c (archiverFor host c) elapsed (.opening fs) = .error e s') :
    e.exitCode = 2 ↔ ∃ e, c.validate fs = .error e := by
  rw [exitCode_eq_two_iff]
  constructor
  · intro blamed
    cases checked : c.validate fs with
    | error e => exact ⟨e, rfl⟩
    | ok _ =>
        have innocent :=
          isConfigFault_of_accepted (s := .opening fs) (archiverFor_backend host c) checked failed
        rw [innocent] at blamed
        cases blamed
  · rintro ⟨e', rejected⟩
    rw [run_of_rejected (s := .opening fs) rejected] at failed
    cases failed
    exact Config.isConfigFault_of_validate rejected

section Ending

variable (o : Options) (failure? : Option Failure) (stdout : Sink) (w : Workshop)

@[simp] theorem ending_exitCode :
    (ending o failure? stdout w).exitCode = failure?.elim 0 Failure.exitCode := rfl

@[simp] theorem ending_stdout : (ending o failure? stdout w).stdout = stdout := rfl

@[simp] theorem ending_workshop : (ending o failure? stdout w).workshop = w := rfl

end Ending

/-- The exit code tells whether all went well (0), the configuration was rejected (2), or something
else failed. -/
structure Ending.Tells (ended : Ending) (well rejected : Prop) : Prop where
  zero : ended.exitCode = 0 ↔ well
  two : ended.exitCode = 2 ↔ rejected
  bound : ended.exitCode ≤ 2

theorem exitCode_of_dry (host : Host) (stdout : Sink) (elapsed : Nat)
    (here : currentDir fs = .ok cwd) (dry : o.dryRun = true) :
    (perform o host fs stdout elapsed).Tells (∃ info, plan (o.toConfig cwd) fs = .ok info)
      (∃ e, (o.toConfig cwd).validate fs = .error e) := by
  rw [perform_of_plan here dry]
  cases checked : (o.toConfig cwd).validate fs with
  | ok _ =>
      rw [plan_eq_ok.2 ⟨checked, rfl⟩]
      exact ⟨by simp, by simp, by simp⟩
  | error e =>
      have two := exitCode_eq_two_iff.2 (Config.isConfigFault_of_validate checked)
      rw [plan_eq_error.2 checked]
      exact ⟨by simp [two], by simp [two], by simp [two]⟩

theorem exitCode_of_earnest (host : Host) (elapsed : Nat) (here : currentDir fs = .ok cwd)
    (earnest : o.dryRun = false) (endless : stdout.room = none)
    {result : EStateM.Result Failure Session Summary}
    (ran : run (o.toConfig cwd) (archiverFor host (o.toConfig cwd)) elapsed (.opening fs) =
      result) :
    (perform o host fs stdout elapsed).Tells (∃ summary s', result = .ok summary s')
      (∃ e, (o.toConfig cwd).validate fs = .error e) := by
  rw [perform_of_run here earnest endless ran]
  cases result with
  | ok summary s' =>
      have accepted : ¬ ∃ e, (o.toConfig cwd).validate fs = .error e := by
        rintro ⟨e, rejected⟩
        rw [run_of_rejected (s := .opening fs) rejected] at ran
        cases ran
      exact ⟨by simp, by simp [accepted], by simp⟩
  | error e s' =>
      have codes := exitCode_pos_le_two e
      exact ⟨by simp [codes.1.ne'], by simp [exitCode_of_run ran], codes.2⟩

/-- If the current directory is gone, the exit code is 1, nothing is printed and nothing changes.
Otherwise the exit code tells whether the plan or the run went well (0), whether the configuration
was rejected (2), or whether something else failed (1). A dry run changes no file and prints the
plan, if there is one; any other run does what `run` does. With `--json` it prints nothing but the
summary, if it goes well: one JSON text, with five members and no other value. Quietly it prints
nothing; and else its progress lines, closed, if it goes well, by the counts, if more words were
asked for, and the time. -/
theorem perform_answers (o : Options) (host : Host) (fs : FileSystem) (elapsed : Nat)
    (endless : stdout.room = none) :
    let ended := perform o host fs stdout elapsed
    (fs.at? fs.workingDir ≠ some .directory →
      ended.exitCode = 1 ∧ ended.workshop = { files := fs } ∧ ended.stdout = stdout) ∧
    ∀ cwd, fs.at? fs.workingDir = some .directory → Utf8.decode? fs.workingDir.path = some cwd →
      let c := o.toConfig cwd
      let result := run c (archiverFor host c) elapsed (.opening fs)
      (ended.exitCode = 0 ↔
        if o.dryRun then ∃ info, plan c fs = .ok info else ∃ summary s', result = .ok summary s') ∧
        (ended.exitCode = 2 ↔ ∃ e, c.validate fs = .error e) ∧ ended.exitCode ≤ 2 ∧
        ended.workshop = (if o.dryRun then { files := fs } else (leftBy result).workshop) ∧
        (∀ summary : Summary, ∀ v, Datum.IsText summary.json.render v ↔ v = .object
          [("archive_path", .text summary.archivePath), ("class_files", .number summary.classFiles),
            ("aux_files", .object
              [("staged", .number summary.auxFiles.staged),
               ("working_dir", .number summary.auxFiles.workingDir)]),
            ("prebuilt_archives", .number summary.prebuiltArchives),
            ("elapsed_ms", .number summary.elapsed)]) ∧
        ended.stdout.taken = stdout.taken ++
          if o.dryRun then
            match plan c fs with
            | .ok info => Utf8.encode (info.planText ++ "\n")
            | .error _ => []
          else if o.json then
            match result with
            | .ok summary _ => Utf8.encode (summary.json.render ++ "\n")
            | .error _ _ => []
          else if o.quiet then []
          else (leftBy result).out.taken ++
            match result with
            | .ok summary _ =>
                told ((if 0 < o.verbosity then
                    [s!"Archive: {summary.archivePath}", s!"  class files: {summary.classFiles}",
                      s!"  staged auxiliary files: {summary.auxFiles.staged}",
                      s!"Auxiliary files written to the working directory: {summary.auxFiles.workingDir}",
                      s!"Pre-built archives copied: {summary.prebuiltArchives}"]
                  else []) ++ [s!"Used time: {summary.elapsed}ms"])
            | .error _ _ => [] := by
  refine ⟨fun gone => ?_, fun cwd stands text => ?_⟩
  · rw [perform_of_gone (currentDir_of_gone gone)]
    exact ⟨rfl, rfl, rfl⟩
  have here := currentDir_eq_ok.2 ⟨stands, text⟩
  have document := fun summary : Summary => Json.isText_render_iff summary.json
  dsimp only
  cases dry : o.dryRun with
  | true =>
      obtain ⟨zero, two, bound⟩ := exitCode_of_dry host stdout elapsed here dry
      refine ⟨zero, two, bound, ?_, document, ?_⟩
      · rw [perform_of_plan here dry]
        cases plan (o.toConfig cwd) fs <;> rfl
      · rw [perform_of_plan here dry]
        cases plan (o.toConfig cwd) fs with
        | ok info => simp [Sink.writeLine_eq_write, Sink.write_of_endless endless]
        | error e => simp
  | false =>
      obtain ⟨zero, two, bound⟩ := exitCode_of_earnest host elapsed here dry endless rfl
      refine ⟨zero, two, bound, ?_, document, ?_⟩
      · rw [perform_of_run here dry endless rfl]
        rfl
      · rw [perform_of_run here dry endless rfl, ending_stdout, Options.heard_eq]
        simp only [told_cons, told_nil, List.append_nil]
        rfl

/-- A command line that has this library pack a game, and asks for more words. -/
def wordyOptions : Options :=
  { sourceArgument := some "/pz", archiver := .zip, workingDir := some "work", verbosity := 1 }

/-- From the root directory such a run goes well, and tells its lines, the counts and the time. -/
theorem perform_answers_wordy :
    (perform wordyOptions standardHost packableGame {} 7).exitCode = 0 ∧
      (perform wordyOptions standardHost packableGame {} 7).stdout.taken =
        told ["Start packaging b42.jar", "Copying *.class", "Package the file into the b42.jar",
          "Removing temporary files", "Complete b42.jar packaging", "Copying jar files",
          "Archive: /work/lib/b42.jar", "  class files: 1", "  staged auxiliary files: 1",
          "Auxiliary files written to the working directory: 3",
          "Pre-built archives copied: 1", "Used time: 7ms"] := by
  have endless : ({} : Sink).room = none := rfl
  have answers := (perform_answers wordyOptions standardHost packableGame 7 endless).2 "/"
    (isDirectoryAt_iff.1 (by decide)) (by decide)
  have well : (resultOf? (run (wordyOptions.toConfig "/")
      (archiverFor standardHost (wordyOptions.toConfig "/")) 7
      (.opening packableGame))).isSome = true := by decide +kernel
  obtain ⟨summary, there⟩ := Option.isSome_iff_exists.1 well
  obtain ⟨s', ran⟩ := resultOf?_eq_some there
  exact ⟨answers.1.2 ⟨summary, s', ran⟩, answers.2.2.2.2.2.trans (by decide +kernel)⟩

end ClassPack
