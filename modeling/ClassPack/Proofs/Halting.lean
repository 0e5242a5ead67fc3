import ClassPack.Proofs.Running

/-!
# Halting — where a run ends, and what it has told by then

* `Config.banner` — the progress lines, in order;
* `Halts` — the seven ways a run can end, each with the number of lines told, what was asked of the
  archiver, the failure and the workshop that is left. There is exactly one for every run:
  `halts_halt`, `Halts.eq_halt`;
* `run_of_failure` and `run_of_success` — the run itself does that: it tells the first so many
  lines, makes these requests and no others, fails with that failure, and leaves that workshop:
  `run_of_halts`.
-/

namespace ClassPack

/-- The progress lines of a run, in order. -/
def Config.banner (c : Config) : List String :=
  [s!"Start packaging {c.layout.archiveName}", "Copying *.class",
    s!"Package the file into the {c.layout.archiveName}", "Removing temporary files",
    s!"Complete {c.layout.archiveName} packaging", "Copying jar files"]

/-- How a run ends. -/
structure Halt where
  /-- How many progress lines were told. -/
  lines : Nat
  /-- What was asked of the archiver. -/
  requests : List ArchiveRequest
  /-- Why it ended, unless it went well. -/
  failure : Option Failure
  /-- What the last step left. -/
  left : Workshop

/-- The ways a run can end: the first step that fails is the last one. -/
inductive Halts (c : Config) (a : Archiver) (w : Workshop) : Halt → Prop where
  /-- The configuration is rejected. -/
  | rejected {e : Failure} : c.validate w.files = .error e → Halts c a w ⟨0, [], some e, w⟩
  /-- The output directory or the staging directory cannot be made anew. -/
  | preparing {e : Failure} {w' : Workshop} : c.validate w.files = .ok () →
      prepare c w = .error e w' → Halts c a w ⟨1, [], some e, w'⟩
  /-- A class file or a file of the manifest cannot be copied. -/
  | filling {e : Failure} {w₁ w' : Workshop} : c.validate w.files = .ok () →
      prepare c w = .ok () w₁ → fillStaging c w₁ = .error e w' → Halts c a w ⟨2, [], some e, w'⟩
  /-- The archiver fails. -/
  | packing {classes : List String} {report : AuxReport} {e : Failure} {w₁ w' : Workshop} :
      c.Filled w classes report w₁ → a.pack c.layout.stagingDir c.layout.archivePath w₁ =
        .error e w' → Halts c a w ⟨3, [c.requestOn w₁.files], some e, w'⟩
  /-- The staging directory cannot be taken away. -/
  | cleaning {classes : List String} {report : AuxReport} {e : Failure} {w₁ w₂ w' : Workshop} :
      c.Filled w classes report w₁ → a.pack c.layout.stagingDir c.layout.archivePath w₁ =
        .ok () w₂ → cleanupStaging c.layout.stagingDir w₂ = .error e w' →
          Halts c a w ⟨4, [c.requestOn w₁.files], some e, w'⟩
  /-- A jar cannot be copied. -/
  | copying {classes : List String} {report : AuxReport} {e : Failure} {w₁ w₂ w₃ w' : Workshop} :
      c.Filled w classes report w₁ → a.pack c.layout.stagingDir c.layout.archivePath w₁ =
        .ok () w₂ → cleanupStaging c.layout.stagingDir w₂ = .ok () w₃ →
          collect c.sourceRoot .prebuiltArchives c.layout.destinationRoot w₃ = .error e w' →
            Halts c a w ⟨6, [c.requestOn w₁.files], some e, w'⟩
  /-- All goes well. -/
  | finished {classes jars : List String} {report : AuxReport} {w₁ w₂ w₃ w' : Workshop} :
      c.Stages a w classes jars report w₁ w₂ w₃ w' →
      Halts c a w ⟨6, [c.requestOn w₁.files], none, w'⟩

/-- How a run ends, found by taking its steps one after the other. -/
def Config.halt (c : Config) (a : Archiver) (w : Workshop) : Halt :=
  match c.validate w.files with
  | .error e => ⟨0, [], some e, w⟩
  | .ok () =>
      match prepare c w with
      | .error e w' => ⟨1, [], some e, w'⟩
      | .ok () w₀ =>
          match fillStaging c w₀ with
          | .error e w' => ⟨2, [], some e, w'⟩
          | .ok _ w₁ =>
              match a.pack c.layout.stagingDir c.layout.archivePath w₁ with
              | .error e w' => ⟨3, [c.requestOn w₁.files], some e, w'⟩
              | .ok () w₂ =>
                  match cleanupStaging c.layout.stagingDir w₂ with
                  | .error e w' => ⟨4, [c.requestOn w₁.files], some e, w'⟩
                  | .ok () w₃ =>
                      match collect c.sourceRoot .prebuiltArchives c.layout.destinationRoot w₃ with
                      | .error e w' => ⟨6, [c.requestOn w₁.files], some e, w'⟩
                      | .ok _ w' => ⟨6, [c.requestOn w₁.files], none, w'⟩

variable {c : Config} {a : Archiver} {w : Workshop} {s : Session} {h : Halt} {elapsed : Nat}

/-- Every run ends in one of these ways, -/
theorem halts_halt (c : Config) (a : Archiver) (w : Workshop) : Halts c a w (c.halt a w) := by
  fun_cases Config.halt c a w with
  | case1 e refused => exact .rejected refused
  | case2 accepted e w' stopped => exact .preparing accepted stopped
  | case3 accepted w₀ made e w' stopped => exact .filling accepted made stopped
  | case4 accepted w₀ made r w₁ fill e w' stopped =>
      exact .packing ⟨accepted, w₀, made, fill⟩ stopped
  | case5 accepted w₀ made r w₁ fill w₂ packed e w' stopped =>
      exact .cleaning ⟨accepted, w₀, made, fill⟩ packed stopped
  | case6 accepted w₀ made r w₁ fill w₂ packed w₃ cleaned e w' stopped =>
      exact .copying ⟨accepted, w₀, made, fill⟩ packed cleaned stopped
  | case7 accepted w₀ made r w₁ fill w₂ packed w₃ cleaned jars w' copied =>
      exact .finished ⟨⟨accepted, w₀, made, fill⟩, packed, cleaned, copied⟩

/-- and in no other. -/
theorem Halts.eq_halt (ends : Halts c a w h) : h = c.halt a w := by
  cases ends with
  | rejected refused => simp [Config.halt, refused]
  | preparing accepted stopped => simp [Config.halt, accepted, stopped]
  | filling accepted made stopped => simp [Config.halt, accepted, made, stopped]
  | packing filled stopped =>
      obtain ⟨accepted, w₀, made, fill⟩ := filled
      simp [Config.halt, accepted, made, fill, stopped]
  | cleaning filled packed stopped =>
      obtain ⟨accepted, w₀, made, fill⟩ := filled
      simp [Config.halt, accepted, made, fill, packed, stopped]
  | copying filled packed cleaned stopped =>
      obtain ⟨accepted, w₀, made, fill⟩ := filled
      simp [Config.halt, accepted, made, fill, packed, cleaned, stopped]
  | finished stages =>
      obtain ⟨⟨accepted, w₀, made, fill⟩, packed, cleaned, copied⟩ := stages
      simp [Config.halt, accepted, made, fill, packed, cleaned, copied]

/-! ## The run -/

namespace Run

variable {α β : Type} {steps : Work α} {f : α → Run β} {c : Config} {w w' : Workshop} {out : Sink}
  {requests : List ArchiveRequest} {a : Archiver} {staged archive : String}

theorem check_bind_of_ok {f : Unit → Run β} (accepted : c.validate w.files = .ok ()) :
    (checkConfig c >>= f) ⟨w, out, requests⟩ = f () ⟨w, out, requests⟩ :=
  bind_of_ok (by simp [checkConfig, accepted])

theorem check_bind_of_error {e : Failure} {f : Unit → Run β}
    (refused : c.validate w.files = .error e) :
    (checkConfig c >>= f) ⟨w, out, requests⟩ = .error e ⟨w, out, requests⟩ :=
  bind_of_error (by simp [checkConfig, refused])

theorem say_bind (line : String) (f : Unit → Run β) :
    (say line >>= f) ⟨w, out, requests⟩ = f () ⟨w, out.writeLine line, requests⟩ := rfl

theorem work_bind_of_ok {r : α} (done : steps w = .ok r w') :
    (work steps >>= f) ⟨w, out, requests⟩ = f r ⟨w', out, requests⟩ :=
  bind_of_ok (work_of_ok (s := ⟨w, out, requests⟩) done)

theorem work_bind_of_error {e : Failure} (stopped : steps w = .error e w') :
    (work steps >>= f) ⟨w, out, requests⟩ = .error e ⟨w', out, requests⟩ :=
  bind_of_error (work_of_error (s := ⟨w, out, requests⟩) stopped)

theorem request_bind_of_ok {f : Unit → Run β} (packed : a.pack staged archive w = .ok () w') :
    (request a staged archive >>= f) ⟨w, out, requests⟩ =
      f () ⟨w', out, requests ++ [⟨staged, archive, w.files⟩]⟩ :=
  bind_of_ok (request_of_ok (s := ⟨w, out, requests⟩) packed)

theorem request_bind_of_error {e : Failure} {f : Unit → Run β}
    (stopped : a.pack staged archive w = .error e w') :
    (request a staged archive >>= f) ⟨w, out, requests⟩ =
      .error e ⟨w', out, requests ++ [⟨staged, archive, w.files⟩]⟩ :=
  bind_of_error (request_of_error (s := ⟨w, out, requests⟩) stopped)

end Run

/-- A session when a run has ended: so many lines told, those requests made, and that
workshop left. -/
def Session.ended (s : Session) (c : Config) (h : Halt) : Session where
  workshop := h.left
  out := (c.banner.take h.lines).foldl Sink.writeLine s.out
  requests := s.requests ++ h.requests

/-- Once the staging directory is filled, two lines have been told and nothing was asked. -/
theorem run_of_filled {classes : List String} {report : AuxReport} {w w' : Workshop} {out : Sink}
    {requests : List ArchiveRequest} (filled : c.Filled w classes report w') :
    run c a elapsed ⟨w, out, requests⟩ =
      c.finishRun a elapsed classes report ⟨w', (c.banner.take 2).foldl Sink.writeLine out,
        requests⟩ := by
  obtain ⟨accepted, w₀, made, fill⟩ := filled
  rw [run_eq, Run.check_bind_of_ok accepted, Run.say_bind, Run.work_bind_of_ok made, Run.say_bind,
    Run.work_bind_of_ok fill]
  rfl

/-- A run that ends with a failure tells the lines up to the step that failed, and leaves what
that step left. -/
theorem run_of_failure {e : Failure} (ends : Halts c a s.workshop h) (failed : h.failure = some e) :
    run c a elapsed s = .error e (s.ended c h) := by
  obtain ⟨w, out, requests⟩ := s
  cases ends with
  | rejected refused =>
      cases failed
      rw [run_eq, Run.check_bind_of_error refused]
      simp [Session.ended]
  | preparing accepted stopped =>
      cases failed
      rw [run_eq, Run.check_bind_of_ok accepted, Run.say_bind, Run.work_bind_of_error stopped]
      simp [Session.ended, Config.banner]
  | filling accepted made stopped =>
      cases failed
      rw [run_eq, Run.check_bind_of_ok accepted, Run.say_bind, Run.work_bind_of_ok made,
        Run.say_bind, Run.work_bind_of_error stopped]
      simp [Session.ended, Config.banner]
  | packing filled stopped =>
      cases failed
      rw [run_of_filled filled, Config.finishRun, Run.say_bind, Run.request_bind_of_error stopped]
      rfl
  | cleaning filled packed stopped =>
      cases failed
      rw [run_of_filled filled, Config.finishRun, Run.say_bind, Run.request_bind_of_ok packed,
        Run.say_bind, Run.work_bind_of_error stopped]
      rfl
  | copying filled packed cleaned stopped =>
      cases failed
      rw [run_of_filled filled, Config.finishRun, Run.say_bind, Run.request_bind_of_ok packed,
        Run.say_bind, Run.work_bind_of_ok cleaned, Run.say_bind, Run.say_bind,
        Run.work_bind_of_error stopped]
      rfl
  | finished stages => cases failed

/-- A run that ends without one goes well, tells all lines, and leaves the files that the
last step left. -/
theorem run_of_success (elapsed : Nat) (ends : Halts c a s.workshop h) (well : h.failure = none) :
    ∃ summary final, run c a elapsed s = .ok summary final ∧ final.out = (s.ended c h).out ∧
      final.requests = (s.ended c h).requests ∧ final.workshop.files = h.left.files := by
  obtain ⟨w, out, requests⟩ := s
  cases ends with
  | finished stages =>
      rw [run_of_filled stages.filled, Config.finishRun, Run.say_bind,
        Run.request_bind_of_ok stages.packed, Run.say_bind, Run.work_bind_of_ok stages.cleaned,
        Run.say_bind, Run.say_bind, Run.work_bind_of_ok stages.copied]
      exact ⟨_, _, rfl, rfl, rfl, rfl⟩
  | _ => cases well

/-- Steps that go well one after the other make a run that tells all lines. -/
theorem run_of_finish (elapsed : Nat) {classes jars : List String} {report : AuxReport}
    {w w' : Workshop} (filled : c.Filled s.workshop classes report w)
    (done : c.finish a w = .ok jars w') :
    ∃ s', run c a elapsed s = .ok ⟨c.layout.archivePath, classes.length, report, jars.length,
      elapsed⟩ s' ∧ s'.workshop.files = w'.files ∧
      s'.out = c.banner.foldl Sink.writeLine s.out := by
  unfold Config.finish at done
  obtain ⟨_, w₁, packed, done⟩ := bind_eq_ok.1 done
  obtain ⟨_, w₂, cleaned, copied⟩ := bind_eq_ok.1 done
  have stages : c.Stages a s.workshop classes jars report w w₁ w₂ w' :=
    ⟨filled, packed, cleaned, copied⟩
  obtain ⟨s', ran, files⟩ : ∃ s', run c a elapsed s = .ok _ s' ∧ _ := run_of_stages stages
  obtain ⟨_, final, ran', out, _⟩ := run_of_success elapsed (.finished stages) rfl
  rw [ran] at ran'
  cases ran'
  exact ⟨s', ran, files, out⟩

/-- The failure of a result, if it is one. -/
def failureOf? {ε σ α : Type} : EStateM.Result ε σ α → Option ε
  | .ok _ _ => none
  | .error e _ => some e

@[simp] theorem failureOf?_ok {ε σ α : Type} (a : α) (s : σ) :
    failureOf? (.ok a s : EStateM.Result ε σ α) = none := rfl

@[simp] theorem failureOf?_error {ε σ α : Type} (e : ε) (s : σ) :
    failureOf? (.error e s : EStateM.Result ε σ α) = some e := rfl

/-- Whether it goes well or not, a run has told and asked what belongs to its end, fails or not, and
leaves those files. -/
theorem run_of_halts (elapsed : Nat) (ends : Halts c a s.workshop h) :
    failureOf? (run c a elapsed s) = h.failure ∧
      (leftBy (run c a elapsed s)).out = (s.ended c h).out ∧
      (leftBy (run c a elapsed s)).requests = (s.ended c h).requests ∧
      (leftBy (run c a elapsed s)).workshop.files = h.left.files := by
  cases failed : h.failure with
  | some e =>
      rw [run_of_failure ends failed]
      exact ⟨rfl, rfl, rfl, rfl⟩
  | none =>
      obtain ⟨summary, final, ran, out, requests, files⟩ := run_of_success elapsed ends failed
      rw [ran]
      exact ⟨rfl, out, requests, files⟩

end ClassPack
