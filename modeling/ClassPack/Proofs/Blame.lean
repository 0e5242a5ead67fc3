import ClassPack.Process.Shell
import ClassPack.Proofs.Archiving
import ClassPack.Proofs.FileSystem.Planting
import ClassPack.Proofs.Running

/-!
# Blame — which failures are laid to the configuration

* `Blameless steps` — wherever the steps begin, a failure of theirs is not laid to the
  configuration. It is so of all that a run does once the configuration is accepted, step by step
  from the calls on the file system up;
* `isConfigFault_of_validate` — a rejection always is laid to it;
* `Archiver.Backend` — the two archivers, the one that calls a program with an executor that fails
  only in ways of its own;
* `exit_two_iff_rejected` — the exit code 2 tells that the configuration was rejected and
  nothing happened.
-/

namespace ClassPack

open FileSystem

section Checks

variable {ε α β : Type}

/-- Checks that fail fail at the first or after it. -/
theorem error_of_bind {x : Except ε α} {f : α → Except ε β} {e : ε} (h : (x >>= f) = .error e) :
    x = .error e ∨ ∃ a, x = .ok a ∧ f a = .error e := by
  cases x with
  | error e' =>
      cases h
      exact .inl rfl
  | ok a => exact .inr ⟨a, rfl, h⟩

theorem error_of_mapM {f : α → Except ε β} {l : List α} {e : ε} (h : l.mapM f = .error e) :
    ∃ a ∈ l, f a = .error e := by
  induction l with
  | nil => cases h
  | cons a rest ih =>
      rw [List.mapM_cons] at h
      rcases error_of_bind h with first | ⟨_, _, h⟩
      · exact ⟨a, List.mem_cons_self .., first⟩
      · rcases error_of_bind h with later | ⟨_, _, h⟩
        · obtain ⟨a', there, failed⟩ := ih later
          exact ⟨a', List.mem_cons_of_mem _ there, failed⟩
        · cases h

end Checks

variable {σ α β : Type}

/-- Wherever the steps begin, a failure of theirs is not laid to the configuration. -/
def Blameless (steps : EStateM Failure σ α) : Prop :=
  ∀ s e s', steps s = .error e s' → e.isConfigFault = false

namespace Blameless

variable {first : EStateM Failure σ α} {next : α → EStateM Failure σ β}

theorem pure (a : α) : Blameless (Pure.pure a : EStateM Failure σ α) := by
  intro s e s' failed
  cases failed

theorem bind (h : Blameless first) (h' : ∀ a, Blameless (next a)) : Blameless (first >>= next) := by
  intro s e s' failed
  cases begun : first s with
  | error e₁ s₁ =>
      rw [bind_of_error begun] at failed
      cases failed
      exact h s e s' begun
  | ok a s₁ =>
      rw [bind_of_ok begun] at failed
      exact h' a s₁ e s' failed

end Blameless

/-! ## Work -/

namespace Work

variable {failure : IoFault → Failure}

theorem blameless_files (words : ∀ fault, (failure fault).isConfigFault = false) (calls : Calls α) :
    Blameless (Work.files failure calls) := by
  intro w e w' failed
  unfold files at failed
  split at failed
  · cases failed
  · cases failed
    exact words _

theorem blameless_view (f : FileSystem → α) : Blameless (Work.view f) := by
  intro w e w' failed
  cases failed

theorem blameless_logAll (level : Level) (messages : List String) :
    Blameless (Work.logAll level messages) := by
  intro w e w' failed
  cases failed

theorem blameless_log (level : Level) (message : String) : Blameless (Work.log level message) :=
  blameless_logAll level [message]

end Work

/-! ## Directories and copies -/

theorem blameless_removeDir (path : String) : Blameless (removeDir path) :=
  Work.blameless_files (fun _ => rfl) _

theorem blameless_recreateDir (path : String) : Blameless (recreateDir path) :=
  .bind (blameless_removeDir path) fun _ => Work.blameless_files (fun _ => rfl) _

theorem blameless_prepareStaging (path : String) : Blameless (prepareStaging path) :=
  .bind (blameless_recreateDir path) fun _ =>
    .bind (Work.blameless_files (fun _ => rfl) _) fun _ => Work.blameless_files (fun _ => rfl) _

theorem blameless_copyFile (source target : String) : Blameless (copyFile source target) := by
  refine .bind (Work.blameless_log _ _) fun _ => ?_
  have copying : Blameless
      (Work.files (.copyFailed source target) (copy (Utf8.encode source) (Utf8.encode target))) :=
    Work.blameless_files (fun _ => rfl) _
  split
  · exact .bind (Work.blameless_files (fun _ => rfl) _) fun _ => copying
  · exact .bind (.pure ()) fun _ => copying

theorem blameless_copyAuxFile (sourceRoot stagingDir workingDir : String) (f : AuxFile) :
    Blameless (copyAuxFile sourceRoot stagingDir workingDir f) := by
  refine .bind (Work.blameless_view _) fun same => ?_
  split
  · exact Work.blameless_log _ _
  · exact .bind (Work.blameless_log _ _) fun _ => blameless_copyFile _ _

theorem blameless_copyAuxFiles (sourceRoot : String) (files : List AuxFile)
    (stagingDir workingDir : String) :
    Blameless (copyAuxFiles sourceRoot files stagingDir workingDir) := by
  have go : ∀ report, Blameless (copyAuxFiles.go sourceRoot stagingDir workingDir report
      files) := by
    induction files with
    | nil => exact fun report => .pure report
    | cons f rest ih => exact fun report => .bind (blameless_copyAuxFile _ _ _ f) fun _ => ih _
  exact go {}

/-! ## Finding and collecting -/

/-- A glob that cannot be read is not laid to the configuration, which has none. -/
theorem isConfigFault_of_compile {pattern : ArtifactPattern} {e : Failure}
    (h : pattern.compile = .error e) : e.isConfigFault = false := by
  have glob : ∀ {text : String} {e : Failure}, readGlob text = .error e →
      e.isConfigFault = false := by
    intro text e failed
    unfold readGlob at failed
    split at failed <;> cases failed
    rfl
  unfold ArtifactPattern.compile at h
  rcases error_of_bind h with wanted | ⟨_, _, h⟩
  · exact glob wanted
  · rcases error_of_bind h with unwanted | ⟨_, _, h⟩
    · obtain ⟨text, _, failed⟩ := error_of_mapM unwanted
      exact glob failed
    · cases h

theorem blameless_findMatches (root : String) (pattern : ArtifactPattern) :
    Blameless (findMatches root pattern) := by
  refine .bind ?_ fun selector => .bind (Work.blameless_view _) fun met => ?_
  · intro w e w' failed
    cases compiled : pattern.compile with
    | ok selector =>
        rw [compiled] at failed
        cases failed
    | error e' =>
        rw [compiled] at failed
        cases failed
        exact isConfigFault_of_compile compiled
  · refine .bind (Work.blameless_logAll _ _) fun _ => ?_
    split
    · intro w e w' failed
      cases failed
      rfl
    · exact .pure _

theorem blameless_collect (sourceRoot : String) (pattern : ArtifactPattern) (targetRoot : String) :
    Blameless (collect sourceRoot pattern targetRoot) := by
  refine .bind (blameless_findMatches _ _) fun paths => .bind (Work.blameless_log _ _) fun _ =>
    .bind ?_ fun _ => .pure _
  induction paths with
  | nil => exact .pure ()
  | cons path rest ih => exact .bind (blameless_copyFile _ _) fun _ => ih

/-! ## Archiving -/

/-- An executor that fails because a program does not start, is stopped, or cannot be waited for. -/
def Executor.FailsOutside (e : Executor) : Prop :=
  ∀ call fs failure fs', e.run call fs = (.error failure, fs') →
    (∃ program fault, failure = .spawnFailed program fault) ∨
      (∃ program seconds, failure = .archiverTimeout program seconds) ∨ ∃ fault, failure = .io fault

/-- The two archivers: the library's own, and the program `jar` run by such an executor. -/
inductive Archiver.Backend : Archiver → Prop where
  | zip : Backend zipArchiver
  | jar {e : Executor} : e.FailsOutside → Backend (jarArchiver e)

theorem systemExecutor_failsOutside (host : Host) (timeout : Option Nat) :
    (systemExecutor host timeout).FailsOutside := by
  intro call fs failure fs' failed
  simp only [systemExecutor] at failed
  split at failed
  · cases failed
    exact .inl ⟨_, _, rfl⟩
  · split at failed
    · cases failed
      exact .inr (.inl ⟨_, _, rfl⟩)
    · cases failed

/-- Whichever archiver a configuration names, it is one of the two. -/
theorem archiverFor_backend (host : Host) (c : Config) : (archiverFor host c).Backend := by
  unfold archiverFor
  split
  · exact .jar (systemExecutor_failsOutside _ _)
  · exact .zip

theorem blameless_makeArchiveDirs (archive : String) : Blameless (makeArchiveDirs archive) := by
  unfold makeArchiveDirs
  split
  · exact Work.blameless_files (fun _ => rfl) _
  · exact .pure ()

/-- What breaks off a listing is the walk, a strange name, or a file that is not read or too
large. -/
theorem isConfigFault_of_packListing {fs : FileSystem} {staged : String}
    {listed : List (Except WalkFault Listed)} {e : Failure}
    (h : (packListing fs staged listed).fault = some e) : e.isConfigFault = false := by
  fun_induction packListing fs staged listed with
  | case1 => cases h
  | case2 rest fault =>
      cases h
      rfl
  | case3 item rest unspelled =>
      cases h
      rfl
  | case4 item rest name spelled entry more ih => exact ih h
  | case5 item rest name spelled target entry ih => exact ih h
  | case6 item rest name spelled content entry fault refused =>
      cases h
      rfl
  | case7 item rest name spelled content entry vetted fits more ih => exact ih h
  | case8 item rest name spelled content entry vetted large =>
      cases h
      rfl

theorem Archiver.Backend.blameless {a : Archiver} (h : a.Backend) (staged archive : String) :
    Blameless (a.pack staged archive) := by
  cases h with
  | zip =>
      refine .bind (blameless_makeArchiveDirs archive) fun _ =>
        .bind (Work.blameless_files (fun _ => rfl) _) fun site =>
          .bind (Work.blameless_view _) fun before => ?_
      -- The listing that the entries are made of is what may break off.
      intro w e w' failed
      rw [bind_of_ok (show Work.view _ w = .ok _ w from rfl)] at failed
      generalize made : packListing w.files staged (w.files.listing (Utf8.encode staged)) =
        packed at failed
      refine Blameless.bind (Work.blameless_files (fun _ => rfl) _) (fun _ =>
        .bind (Work.blameless_logAll _ _) fun _ => ?_) w e w' failed
      intro w e w' failed
      cases broken : packed.fault with
      | some fault =>
          rw [broken] at failed
          cases failed
          exact isConfigFault_of_packListing (made ▸ broken)
      | none =>
          rw [broken] at failed
          exact Work.blameless_log _ _ w e w' failed
  | @jar executor outside =>
      refine .bind (blameless_makeArchiveDirs archive) fun _ => .bind ?_ fun output => ?_
      · intro w e w' failed
        unfold Work.call at failed
        split at failed
        · cases failed
        · rename_i reported
          cases failed
          obtain ⟨_, _, rfl⟩ | ⟨_, _, rfl⟩ | ⟨_, rfl⟩ := outside _ _ _ _ reported <;> rfl
      · split
        · exact Work.blameless_log _ _
        · intro w e w' failed
          cases failed
          rfl

/-! ## Whole runs -/

theorem Run.blameless_say (line : String) : Blameless (Run.say line) := by
  intro s e s' failed
  cases failed

theorem Run.blameless_work {steps : Work α} (h : Blameless steps) : Blameless (Run.work steps) := by
  intro s e s' failed
  unfold Run.work at failed
  split at failed
  · cases failed
  · rename_i stopped
    cases failed
    exact h _ _ _ stopped

theorem Run.blameless_request {a : Archiver} (h : a.Backend) (staged archive : String) :
    Blameless (Run.request a staged archive) := by
  intro s e s' failed
  exact Run.blameless_work (h.blameless staged archive) _ e s' failed

namespace Config

variable {c : Config} {a : Archiver} {elapsed : Nat} {s s' : Session} {e : Failure}

theorem blameless_finishRun (h : a.Backend) (c : Config) (elapsed : Nat) (classes : List String)
    (report : AuxReport) : Blameless (c.finishRun a elapsed classes report) :=
  .bind (Run.blameless_say _) fun _ => .bind (Run.blameless_request h _ _) fun _ =>
    .bind (Run.blameless_say _) fun _ => .bind (Run.blameless_work (blameless_removeDir _)) fun _ =>
      .bind (Run.blameless_say _) fun _ => .bind (Run.blameless_say _) fun _ =>
        .bind (Run.blameless_work (blameless_collect _ _ _)) fun _ =>
          .bind (Run.blameless_work (Work.blameless_log _ _)) fun _ => .pure _

theorem blameless_prepare (c : Config) : Blameless (prepare c) :=
  .bind (Work.blameless_log _ _) fun _ => .bind (blameless_recreateDir _) fun _ =>
    blameless_prepareStaging _

theorem blameless_fillStaging (c : Config) : Blameless (fillStaging c) :=
  .bind (blameless_collect _ _ _) fun _ => .bind (blameless_copyAuxFiles _ _ _ _) fun _ => .pure _

/-- A rejection is laid to the configuration. -/
theorem isConfigFault_of_validate {fs : FileSystem} (h : c.validate fs = .error e) :
    e.isConfigFault = true := by
  have relative : ∀ {path what : String}, checkRelative path what = .error e →
      e.isConfigFault = true := by
    intro path what failed
    unfold checkRelative at failed
    split at failed <;> cases failed
    rfl
  have token : ∀ {value what : String}, checkToken value what = .error e →
      e.isConfigFault = true := by
    intro value what failed
    unfold checkToken at failed
    split at failed <;> cases failed
    rfl
  have staging : ∀ {name : String}, checkStagingName name = .error e → e.isConfigFault = true := by
    intro name failed
    unfold checkStagingName at failed
    split at failed <;> cases failed
    rfl
  have manifest : ∀ {files : List AuxFile}, validateManifest files = .error e →
      e.isConfigFault = true := by
    intro files failed
    induction files with
    | nil => cases failed
    | cons f rest ih =>
        unfold validateManifest at failed
        rcases error_of_bind failed with source | ⟨_, _, failed⟩
        · exact relative source
        · rcases error_of_bind failed with target | ⟨_, _, failed⟩
          · exact relative target
          · exact ih failed
  unfold validate at h
  dsimp only at h
  split at h
  · cases h
    rfl
  split at h
  · cases h
    rfl
  split at h
  · cases h
    rfl
  rcases error_of_bind h with outDir | ⟨_, _, h⟩
  · exact relative outDir
  split at h
  · cases h
    rfl
  rcases error_of_bind h with name | ⟨_, _, h⟩
  · exact staging name
  rcases error_of_bind h with version | ⟨_, _, h⟩
  · exact token version
  rcases error_of_bind h with extension | ⟨_, _, h⟩
  · exact token extension
  · exact manifest h

end Config

variable {c : Config} {a : Archiver} {elapsed : Nat} {s s' : Session} {e : Failure}

theorem run_of_rejected (h : c.validate s.workshop.files = .error e) :
    run c a elapsed s = .error e s := by
  have stop : checkConfig c s = .error e s := by simp [checkConfig, h]
  exact bind_of_error stop

/-- Once the configuration is accepted, no failure is laid to it. -/
theorem isConfigFault_of_accepted (backend : a.Backend)
    (accepted : c.validate s.workshop.files = .ok ()) (failed : run c a elapsed s = .error e s') :
    e.isConfigFault = false := by
  have go : checkConfig c s = .ok () s := by simp [checkConfig, accepted]
  rw [run_eq, bind_of_ok go] at failed
  refine Blameless.bind (Run.blameless_say _) (fun _ => ?_) s e s' failed
  exact .bind (Run.blameless_work (Config.blameless_prepare c)) fun _ =>
    .bind (Run.blameless_say _) fun _ =>
    .bind (Run.blameless_work (Config.blameless_fillStaging c)) fun r =>
      Config.blameless_finishRun backend c elapsed r.1 r.2

/-- A run ends with exit code 2 if and only if the configuration is rejected. Then it fails as the
check does, and the session is as it was: the files, what was written, and what was asked of the
archiver. Whatever fails once the configuration is accepted, or anything in the session has changed,
ends with exit code 1. -/
theorem exit_two_iff_rejected (backend : a.Backend) (c : Config) (elapsed : Nat) (s : Session) :
    ((∃ e s', run c a elapsed s = .error e s' ∧ e.exitCode = 2) ↔
        ∃ e, c.validate s.workshop.files = .error e) ∧
      (∀ e, c.validate s.workshop.files = .error e →
        run c a elapsed s = .error e s ∧ e.exitCode = 2) ∧
      ∀ e s', run c a elapsed s = .error e s' →
        c.validate s.workshop.files = .ok () ∨ s' ≠ s → e.exitCode = 1 := by
  have rejected : ∀ e, c.validate s.workshop.files = .error e →
      run c a elapsed s = .error e s ∧ e.exitCode = 2 := fun e h =>
    ⟨run_of_rejected h, by simp [Failure.exitCode, Config.isConfigFault_of_validate h]⟩
  have accepted : ∀ {e s'}, c.validate s.workshop.files = .ok () → run c a elapsed s = .error e s' →
      e.exitCode = 1 := fun h failed => by
    simp [Failure.exitCode, isConfigFault_of_accepted backend h failed]
  refine ⟨⟨?_, fun ⟨e, h⟩ => ⟨e, s, rejected e h⟩⟩, rejected, ?_⟩
  · rintro ⟨e, s', failed, two⟩
    cases checked : c.validate s.workshop.files with
    | error e' => exact ⟨e', rfl⟩
    | ok _ =>
        rw [accepted checked failed] at two
        cases two
  · intro e s' failed late
    cases checked : c.validate s.workshop.files with
    | ok _ => exact accepted checked failed
    | error e' =>
        -- Nothing has changed, so the configuration would have to be accepted.
        rw [run_of_rejected checked] at failed
        cases failed
        simp [checked] at late

/-- A run that has a host make the archive. -/
def hostConfig (workingDir : String) : Config := { sourceRoot := "/pz", workingDir, auxFiles := [] }

/-- Inside the game's directory a run is rejected with exit code 2. Beside it, and on a host without
the program `jar`, it fails with 1. -/
theorem exit_two_iff_rejected_without_jar :
    (∃ e s', run (hostConfig "/pz/mods") (archiverFor standardHost (hostConfig "/pz/mods")) 0
        (.opening ((empty {}).plant "/pz" .directory)) = .error e s' ∧ e.exitCode = 2) ∧
      ∃ e s', run (hostConfig "/work") (archiverFor standardHost (hostConfig "/work")) 0
        (.opening ((empty {}).plant "/pz" .directory)) = .error e s' ∧ e.exitCode = 1 := by
  constructor
  · exact (exit_two_iff_rejected (archiverFor_backend ..) ..).1.2
      ⟨.invalidConfig (.workingDirInside "/pz/mods" "/pz"), by decide⟩
  · have stopped : resultOf? (run (hostConfig "/work")
        (archiverFor standardHost (hostConfig "/work")) 0
          (.opening ((empty {}).plant "/pz" .directory))) = none := by decide +kernel
    generalize ended : run (hostConfig "/work") (archiverFor standardHost (hostConfig "/work")) 0
      (.opening ((empty {}).plant "/pz" .directory)) = result at stopped ⊢
    cases result with
    | ok summary s' => simp [resultOf?] at stopped
    | error e s' =>
        exact ⟨e, s', rfl, (exit_two_iff_rejected (archiverFor_backend ..) ..).2.2 e s' ended
          (.inl (by decide))⟩

end ClassPack
