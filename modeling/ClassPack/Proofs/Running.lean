import ClassPack.Proofs.Steps

/-!
# Running — how far a run gets

* `Config.Filled` — a configuration was accepted, and the staging directory made and filled;
* `Config.finish` — what is left to do from there on: packing, cleaning up, and copying jars;
* `Course` — the stages at which a run can end, with what was asked of the archiver and the files
  that are left: `run_course`. A run that goes well has gone through all of them (`run_ok`), and
  steps that go well one after the other make such a run (`run_of_stages`).
-/

namespace ClassPack

/-- A session that begins on a file system. -/
def Session.opening (files : FileSystem) : Session := { workshop := { files } }

@[simp] theorem Session.opening_files (files : FileSystem) :
    (Session.opening files).workshop.files = files := rfl

namespace Run

variable {α : Type} {steps : Work α} {s : Session}

theorem say_ok (line : String) (s : Session) :
    ∃ s', Run.say line s = .ok () s' ∧ s'.workshop = s.workshop ∧ s'.requests = s.requests :=
  ⟨_, rfl, rfl, rfl⟩

theorem work_of_ok {a : α} {w : Workshop} (h : steps s.workshop = .ok a w) :
    Run.work steps s = .ok a { s with workshop := w } := by
  simp [Run.work, h]

theorem work_eq_ok {a : α} {s' : Session} (h : Run.work steps s = .ok a s') :
    steps s.workshop = .ok a s'.workshop := by
  unfold Run.work at h
  split at h
  · rename_i done
    cases h
    exact done
  · cases h

theorem work_requests {a : α} {s' : Session} (h : Run.work steps s = .ok a s') :
    s'.requests = s.requests := by
  unfold Run.work at h
  split at h <;> cases h
  rfl

theorem work_of_error {e : Failure} {w : Workshop} (h : steps s.workshop = .error e w) :
    Run.work steps s = .error e { s with workshop := w } := by
  simp [Run.work, h]

variable {a : Archiver} {staged archive : String}

theorem request_of_ok {w : Workshop} (h : a.pack staged archive s.workshop = .ok () w) :
    Run.request a staged archive s =
      .ok () { s with
        workshop := w
        requests := s.requests ++ [⟨staged, archive, s.workshop.files⟩] } := by
  simp [Run.request, Run.work, h]

theorem request_of_error {e : Failure} {w : Workshop}
    (h : a.pack staged archive s.workshop = .error e w) : Run.request a staged archive s =
      .error e { s with
        workshop := w
        requests := s.requests ++ [⟨staged, archive, s.workshop.files⟩] } := by
  simp [Run.request, Run.work, h]

end Run

namespace Config

variable (c : Config) (a : Archiver)

/-- The configuration was accepted, and both directories were made and filled. -/
structure Filled (w : Workshop) (paths : List String) (report : AuxReport) (w' : Workshop) :
    Prop where
  accepted : c.validate w.files = .ok ()
  steps : ∃ w₁, prepare c w = .ok () w₁ ∧ fillStaging c w₁ = .ok (paths, report) w'

theorem Filled.unique {c : Config} {w w₂ w₂' : Workshop} {paths paths' : List String}
    {report report' : AuxReport} (h : c.Filled w paths report w₂)
    (h' : c.Filled w paths' report' w₂') : paths = paths' ∧ report = report' ∧ w₂ = w₂' := by
  obtain ⟨w₁, made, filled⟩ := h.steps
  obtain ⟨w₁', made', filled'⟩ := h'.steps
  rw [made] at made'
  cases made'
  rw [filled] at filled'
  cases filled'
  exact ⟨rfl, rfl, rfl⟩

/-- What a run does once the staging directory is filled. -/
def finish : Work (List String) := do
  a.pack c.layout.stagingDir c.layout.archivePath
  cleanupStaging c.layout.stagingDir
  collect c.sourceRoot .prebuiltArchives c.layout.destinationRoot

/-- The states of a run that goes well: `w₁` when the staging directory was filled, `w₂` when it was
packed, `w₃` when it was taken away, and `w₄` when the jars were copied. -/
structure Stages (w : Workshop) (classes jars : List String) (report : AuxReport)
    (w₁ w₂ w₃ w₄ : Workshop) : Prop where
  filled : c.Filled w classes report w₁
  packed : a.pack c.layout.stagingDir c.layout.archivePath w₁ = .ok () w₂
  cleaned : cleanupStaging c.layout.stagingDir w₂ = .ok () w₃
  copied : collect c.sourceRoot .prebuiltArchives c.layout.destinationRoot w₃ = .ok jars w₄

/-- What a run does from there on, with its progress lines. -/
def finishRun (elapsed : Nat) (classes : List String) (report : AuxReport) : Run Summary := do
  let layout := c.layout
  Run.say s!"Package the file into the {layout.archiveName}"
  Run.request a layout.stagingDir layout.archivePath
  Run.say "Removing temporary files"
  Run.work (cleanupStaging layout.stagingDir)
  Run.say s!"Complete {layout.archiveName} packaging"
  Run.say "Copying jar files"
  let jars ← Run.work (collect c.sourceRoot .prebuiltArchives layout.destinationRoot)
  Run.work (Work.log .info
    s!"packaged {classes.length} class file(s) into {layout.archivePath} and copied {jars.length} pre-built archive(s)")
  pure ⟨layout.archivePath, classes.length, report, jars.length, elapsed⟩

/-- What a run asks of the archiver when the files are those. -/
def requestOn (files : FileSystem) : ArchiveRequest :=
  ⟨c.layout.stagingDir, c.layout.archivePath, files⟩

end Config

/-- The stages at which a run can end: what was asked of the archiver by then, and the files
left. -/
inductive Course (c : Config) (a : Archiver) (w : Workshop) :
    List ArchiveRequest → FileSystem → Prop where
  | rejected {e : Failure} : c.validate w.files = .error e → Course c a w [] w.files
  | prepared : c.validate w.files = .ok () → Course c a w [] (leftBy (prepare c w)).files
  | filled {w₁ : Workshop} : c.validate w.files = .ok () → prepare c w = .ok () w₁ →
      Course c a w [] (leftBy (fillStaging c w₁)).files
  | finished {paths : List String} {report : AuxReport}
      {w' : Workshop} : c.Filled w paths report w' → Course c a w [c.requestOn w'.files]
      (leftBy (c.finish a w')).files

variable {c : Config} {a : Archiver} {elapsed : Nat} {s s' : Session} {summary : Summary}

theorem run_eq (c : Config) (a : Archiver) (elapsed : Nat) :
    run c a elapsed = (do
      checkConfig c
      Run.say s!"Start packaging {c.layout.archiveName}"
      Run.work (prepare c)
      Run.say "Copying *.class"
      let r ← Run.work (fillStaging c)
      c.finishRun a elapsed r.1 r.2) := rfl

/-- Whether it goes well or not, a run finishes as the bare steps do. -/
theorem finishRun_spec (c : Config) (a : Archiver) (elapsed : Nat) (classes : List String)
    (report : AuxReport) (s : Session) :
    (leftBy (c.finishRun a elapsed classes report s)).requests =
        s.requests ++ [c.requestOn s.workshop.files] ∧
      (leftBy (c.finishRun a elapsed classes report s)).workshop.files =
        (leftBy (c.finish a s.workshop)).files ∧
      ∀ summary s', c.finishRun a elapsed classes report s = .ok summary s' →
        ∃ jars w', c.finish a s.workshop = .ok jars w' ∧
          summary = ⟨c.layout.archivePath, classes.length, report, jars.length, elapsed⟩ := by
  unfold Config.finishRun Config.finish
  -- Progress lines change neither the workshop nor what was asked.
  obtain ⟨s₁, said, sameWork, sameRequests⟩ :=
    Run.say_ok s!"Package the file into the {c.layout.archiveName}" s
  rw [bind_of_ok said, ← sameWork, ← sameRequests]
  cases packed : a.pack c.layout.stagingDir c.layout.archivePath s₁.workshop with
  | error e w₁ =>
      rw [bind_of_error (Run.request_of_error packed), bind_of_error packed]
      exact ⟨rfl, rfl, by simp⟩
  | ok _ w₁ =>
      rw [bind_of_ok (Run.request_of_ok packed), bind_of_ok packed]
      generalize asked : ({ s₁ with workshop := w₁, requests := _ } : Session) = s₂
      obtain ⟨rfl, requests⟩ : s₂.workshop = w₁ ∧
          s₂.requests = s₁.requests ++ [c.requestOn s₁.workshop.files] := by
        subst asked
        exact ⟨rfl, rfl⟩
      obtain ⟨s₃, said, sameWork, sameRequests⟩ := Run.say_ok "Removing temporary files" s₂
      rw [bind_of_ok said, ← sameWork]
      rw [← sameRequests] at requests
      cases cleaned : cleanupStaging c.layout.stagingDir s₃.workshop with
      | error e w₂ =>
          rw [bind_of_error (Run.work_of_error cleaned), bind_of_error cleaned]
          exact ⟨requests, rfl, by simp⟩
      | ok _ w₂ =>
          rw [bind_of_ok (Run.work_of_ok cleaned), bind_of_ok cleaned]
          obtain ⟨s₄, said, sameWork, sameRequests⟩ :=
            Run.say_ok s!"Complete {c.layout.archiveName} packaging" { s₃ with workshop := w₂ }
          obtain rfl : s₄.workshop = w₂ := sameWork
          have sameRequests : s₄.requests = s₃.requests := sameRequests
          rw [← sameRequests] at requests
          rw [bind_of_ok said]
          obtain ⟨s₅, said, sameWork, sameRequests⟩ := Run.say_ok "Copying jar files" s₄
          rw [bind_of_ok said, ← sameWork]
          rw [← sameRequests] at requests
          cases copied : collect c.sourceRoot .prebuiltArchives c.layout.destinationRoot
              s₅.workshop with
          | error e w₃ =>
              rw [bind_of_error (Run.work_of_error copied)]
              exact ⟨requests, rfl, by simp⟩
          | ok jars w₃ =>
              rw [bind_of_ok (Run.work_of_ok copied)]
              refine ⟨requests, rfl, ?_⟩
              rintro summary s' ⟨⟩
              exact ⟨jars, w₃, rfl, rfl⟩

theorem run_course (c : Config) (a : Archiver) (elapsed : Nat) (s : Session) :
    ∃ requests, (leftBy (run c a elapsed s)).requests = s.requests ++ requests ∧
      Course c a s.workshop requests (leftBy (run c a elapsed s)).workshop.files := by
  rw [run_eq]
  cases accepted : c.validate s.workshop.files with
  | error e =>
      have stop : checkConfig c s = .error e s := by simp [checkConfig, accepted]
      rw [bind_of_error stop]
      exact ⟨[], by simp, .rejected accepted⟩
  | ok _ =>
      have go : checkConfig c s = .ok () s := by simp [checkConfig, accepted]
      rw [bind_of_ok go]
      -- Nothing is asked of the archiver before the staging directory is filled.
      obtain ⟨s₁, said, sameWork, sameRequests⟩ :=
        Run.say_ok s!"Start packaging {c.layout.archiveName}" s
      rw [bind_of_ok said, ← sameRequests]
      rw [← sameWork] at accepted ⊢
      cases first : prepare c s₁.workshop with
      | error e w₁ =>
          have left := Course.prepared (a := a) accepted
          rw [first] at left
          rw [bind_of_error (Run.work_of_error first)]
          exact ⟨[], by simp, left⟩
      | ok _ w₁ =>
          rw [bind_of_ok (Run.work_of_ok first)]
          obtain ⟨s₂, said, sameWork, sameRequests⟩ :=
            Run.say_ok "Copying *.class" { s₁ with workshop := w₁ }
          have sameWork : s₂.workshop = w₁ := sameWork
          have sameRequests : s₂.requests = s₁.requests := sameRequests
          rw [bind_of_ok said, ← sameRequests]
          rw [← sameWork] at first
          cases second : fillStaging c s₂.workshop with
          | error e w₂ =>
              have left := Course.filled (a := a) accepted first
              rw [second] at left
              rw [bind_of_error (Run.work_of_error second)]
              exact ⟨[], by simp, left⟩
          | ok r w₂ =>
              obtain ⟨paths, report⟩ := r
              have left := Course.finished (a := a) ⟨accepted, _, first, second⟩
              obtain ⟨requests, files, _⟩ :=
                finishRun_spec c a elapsed paths report { s₂ with workshop := w₂ }
              rw [bind_of_ok (Run.work_of_ok second)]
              refine ⟨[c.requestOn w₂.files], requests, ?_⟩
              rw [files]
              exact left

/-- The summary of a run that took another time. -/
def Summary.timed (summary : Summary) (elapsed : Nat) : Summary := { summary with elapsed }

/-- The clock is read into the summary, and nothing else depends on it. -/
theorem run_elapsed (c : Config) (a : Archiver) (elapsed elapsed' : Nat) (s : Session) :
    run c a elapsed' s =
      match run c a elapsed s with
      | .ok summary s' => .ok (summary.timed elapsed') s'
      | .error e s' => .error e s' := by
  have timed : run c a elapsed' = run c a elapsed >>= fun summary =>
    pure (summary.timed elapsed') := by
    simp only [run, bind_assoc, pure_bind, Summary.timed]
  rw [timed]
  show EStateM.bind _ _ s = _
  unfold EStateM.bind
  cases run c a elapsed s <;> rfl

theorem run_ok (h : run c a elapsed s = .ok summary s') :
    ∃ paths report w₂ jars w₃, c.Filled s.workshop paths report w₂ ∧ c.finish a w₂ = .ok jars w₃ ∧
      s'.workshop.files = w₃.files ∧ s'.requests = s.requests ++ [c.requestOn w₂.files] ∧
      summary = ⟨c.layout.archivePath, paths.length, report, jars.length, elapsed⟩ := by
  rw [run_eq] at h
  obtain ⟨_, s₁, checked, h⟩ := bind_eq_ok.1 h
  obtain ⟨_, s₂, said, h⟩ := bind_eq_ok.1 h
  obtain ⟨_, s₃, prepared, h⟩ := bind_eq_ok.1 h
  obtain ⟨_, s₄, said', h⟩ := bind_eq_ok.1 h
  obtain ⟨⟨paths, report⟩, s₅, filled, last⟩ := bind_eq_ok.1 h
  have accepted : c.validate s.workshop.files = .ok () ∧ s₁ = s := by
    unfold checkConfig at checked
    split at checked
    · cases checked
      exact ⟨by assumption, rfl⟩
    · cases checked
  obtain ⟨accepted, rfl⟩ := accepted
  cases said
  cases said'
  have filling := Run.work_requests filled
  have preparing := Run.work_requests prepared
  have prepared := Run.work_eq_ok prepared
  have filled := Run.work_eq_ok filled
  obtain ⟨requests, files, ends⟩ := finishRun_spec c a elapsed paths report s₅
  obtain ⟨jars, w', finished, same⟩ := ends summary s' last
  rw [last, leftBy_ok] at requests files
  rw [finished, leftBy_ok] at files
  rw [filling.trans preparing] at requests
  exact ⟨paths, report, s₅.workshop, jars, w', ⟨accepted, s₃.workshop, prepared, filled⟩,
    finished, files, requests, same⟩

theorem run_stages (h : run c a elapsed s = .ok summary s') :
    ∃ classes jars report w₁ w₂ w₃ w₄, c.Stages a s.workshop classes jars report w₁ w₂ w₃ w₄ ∧
      s'.workshop.files = w₄.files ∧
        summary = ⟨c.layout.archivePath, classes.length, report, jars.length, elapsed⟩ := by
  obtain ⟨classes, report, w₁, jars, w₄, filled, finish, files, _, same⟩ := run_ok h
  unfold Config.finish at finish
  obtain ⟨_, w₂, packed, finish⟩ := bind_eq_ok.1 finish
  obtain ⟨_, w₃, cleaned, copied⟩ := bind_eq_ok.1 finish
  exact ⟨classes, jars, report, w₁, w₂, w₃, w₄, ⟨filled, packed, cleaned, copied⟩, files, same⟩

/-- Steps that go well one after the other make a run that does. -/
theorem run_of_stages {classes jars : List String} {report : AuxReport} {w₁ w₂ w₃ w₄ : Workshop}
    (stages : c.Stages a s.workshop classes jars report w₁ w₂ w₃ w₄) :
    ∃ s', run c a elapsed s = .ok ⟨c.layout.archivePath, classes.length, report, jars.length,
      elapsed⟩ s' ∧ s'.workshop.files = w₄.files := by
  obtain ⟨⟨accepted, w₀, made, fill⟩, packed, cleaned, copied⟩ := stages
  have go : checkConfig c s = .ok () s := by simp [checkConfig, accepted]
  rw [run_eq, bind_of_ok go]
  exact ⟨_, bind_eq_ok.2 ⟨(), _, rfl,
    bind_eq_ok.2 ⟨(), _, Run.work_of_ok made, bind_eq_ok.2 ⟨(), _, rfl,
    bind_eq_ok.2 ⟨_, _, Run.work_of_ok fill,
      bind_eq_ok.2 ⟨(), _, rfl, bind_eq_ok.2 ⟨(), _, Run.request_of_ok packed,
      bind_eq_ok.2 ⟨(), _, rfl, bind_eq_ok.2 ⟨(), _, Run.work_of_ok cleaned,
        bind_eq_ok.2 ⟨(), _, rfl, bind_eq_ok.2 ⟨(), _, rfl,
          bind_eq_ok.2 ⟨_, _, Run.work_of_ok copied, bind_eq_ok.2 ⟨(), _, rfl, rfl⟩⟩⟩⟩⟩⟩⟩⟩⟩⟩⟩⟩,
    rfl⟩

end ClassPack
