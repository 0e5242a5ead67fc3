import ClassPack.Proofs.Running

/-!
# Telling — to whom a run tells its progress does not matter

* `told`, the bytes of lines; `Sink.foldl_writeLine` — lines told one after the other come to one
  write of all their bytes, also where a sink cuts them short;
* `Deaf steps` — the steps tell certain lines to whoever listens, and nothing else depends on that.
  It is so of the basic steps, of all that is made of such, and so of a run: `deaf_run`;
* `broken_sink_unnoticed` — a sink that takes only so many bytes gets the first of what an endless
  one gets, and the run comes to the same.
-/

namespace ClassPack

variable {α β : Type}

/-! ## Lines -/

/-- The bytes of lines. -/
def told (lines : List String) : Bytes := lines.flatMap fun line => Utf8.encode (line ++ "\n")

@[simp] theorem told_nil : told [] = [] := rfl

@[simp] theorem told_cons (line : String) (lines : List String) :
    told (line :: lines) = Utf8.encode (line ++ "\n") ++ told lines := rfl

@[simp] theorem told_append (lines more : List String) :
    told (lines ++ more) = told lines ++ told more :=
  List.flatMap_append

namespace Sink

/-- Bytes written in two parts are written as one. -/
theorem write_write (s : Sink) (bytes more : Bytes) :
    ((s.write bytes).1.write more).1 = (s.write (bytes ++ more)).1 := by
  obtain ⟨_ | n, taken⟩ := s
  · simp [write]
  · simp [write, List.take_append, Nat.sub_sub]

/-- After a text was refused there is no room for the end of its line. -/
theorem writeLine_eq_write (s : Sink) (line : String) :
    s.writeLine line = (s.write (Utf8.encode (line ++ "\n"))).1 := by
  rw [Utf8.encode_append, ← write_write]
  unfold writeLine offerLine
  split
  · rename_i after written
    rw [written]
  · rename_i after refused
    obtain ⟨_ | n, taken⟩ := s
    · simp [write] at refused
    · simp only [write, Prod.mk.injEq, decide_eq_false_iff_not, Nat.not_le] at refused
      obtain ⟨rfl, long⟩ := refused
      simp [write, Nat.sub_eq_zero_of_le (Nat.le_of_lt long)]

theorem foldl_writeLine (lines : List String) (s : Sink) :
    lines.foldl writeLine s = (s.write (told lines)).1 := by
  induction lines generalizing s with
  | nil => obtain ⟨_ | n, taken⟩ := s <;> simp [write]
  | cons line rest ih => rw [List.foldl_cons, ih, writeLine_eq_write, write_write, told_cons]

theorem write_of_endless {s : Sink} (endless : s.room = none) (bytes : Bytes) :
    s.write bytes = ({ s with taken := s.taken ++ bytes }, true) := by
  simp [write, endless]

theorem offerLine_of_endless {s : Sink} (endless : s.room = none) (line : String) :
    s.offerLine line = ({ s with taken := s.taken ++ told [line] }, true) := by
  simp [offerLine, write, endless]

/-- A sink that takes all bytes has taken every line told. -/
theorem foldl_writeLine_of_endless {s : Sink} (endless : s.room = none) (lines : List String) :
    lines.foldl writeLine s = { s with taken := s.taken ++ told lines } := by
  rw [foldl_writeLine, write_of_endless endless]

end Sink

/-! ## Steps -/

/-- The same result, with something else told. -/
def toldTo (out : Sink) : EStateM.Result Failure Session α → EStateM.Result Failure Session α
  | .ok a s => .ok a { s with out }
  | .error e s => .error e { s with out }

@[simp] theorem toldTo_toldTo (out out' : Sink) (r : EStateM.Result Failure Session α) :
    toldTo out (toldTo out' r) = toldTo out r := by
  cases r <;> rfl

@[simp] theorem out_toldTo (out : Sink) (r : EStateM.Result Failure Session α) :
    (leftBy (toldTo out r)).out = out := by
  cases r <;> rfl

/-- The steps tell certain lines to whoever listens, and nothing else depends on that. -/
def Deaf (steps : Run α) : Prop :=
  ∀ s, ∃ lines : List String, ∀ out, steps { s with out } =
    toldTo (lines.foldl Sink.writeLine out) (steps s)

namespace Deaf

variable {steps : Run α} {next : α → Run β}

theorem pure (a : α) : Deaf (Pure.pure a : Run α) := fun _ => ⟨[], fun _ => rfl⟩

theorem bind (h : Deaf steps) (h' : ∀ a, Deaf (next a)) : Deaf (steps >>= next) := by
  intro s
  obtain ⟨lines, first⟩ := h s
  cases begun : steps s with
  | error e s₁ =>
      refine ⟨lines, fun out => ?_⟩
      have again := first out
      rw [begun] at again
      rw [bind_of_error begun, bind_of_error again]
      rfl
  | ok a s₁ =>
      obtain ⟨more, second⟩ := h' a s₁
      refine ⟨lines ++ more, fun out => ?_⟩
      have again := first out
      rw [begun] at again
      rw [bind_of_ok begun, bind_of_ok again, List.foldl_append]
      exact second _

/-- A sink that takes all bytes takes what a new one would have taken. -/
theorem endless (h : Deaf steps) (s : Session) {out : Sink} (endless : out.room = none) :
    steps { s with out } =
      toldTo { out with taken := out.taken ++ (leftBy (steps { s with out := {} })).out.taken }
        (steps { s with out := {} }) := by
  obtain ⟨lines, heard⟩ := h s
  rw [heard out, heard {}, Sink.foldl_writeLine_of_endless endless,
    Sink.foldl_writeLine_of_endless rfl]
  simp

end Deaf

theorem Run.deaf_say (line : String) : Deaf (Run.say line) := fun _ => ⟨[line], fun _ => rfl⟩

theorem Run.deaf_work (steps : Work α) : Deaf (Run.work steps) := by
  refine fun s => ⟨[], fun out => ?_⟩
  unfold Run.work
  cases steps s.workshop <;> rfl

theorem Run.deaf_request (a : Archiver) (staged archive : String) :
    Deaf (Run.request a staged archive) := by
  refine fun s => ⟨[], fun out => ?_⟩
  unfold Run.request Run.work
  cases a.pack staged archive s.workshop <;> rfl

theorem deaf_checkConfig (c : Config) : Deaf (checkConfig c) := by
  refine fun s => ⟨[], fun out => ?_⟩
  unfold checkConfig
  cases c.validate s.workshop.files <;> rfl

theorem deaf_finishRun (c : Config) (a : Archiver) (elapsed : Nat) (classes : List String)
    (report : AuxReport) : Deaf (c.finishRun a elapsed classes report) :=
  .bind (Run.deaf_say _) fun _ => .bind (Run.deaf_request _ _ _) fun _ =>
    .bind (Run.deaf_say _) fun _ =>
    .bind (Run.deaf_work _) fun _ => .bind (Run.deaf_say _) fun _ => .bind (Run.deaf_say _) fun _ =>
      .bind (Run.deaf_work _) fun _ => .bind (Run.deaf_work _) fun _ => .pure _

/-- A run tells its lines to whoever listens, and nothing else depends on that. -/
theorem deaf_run (c : Config) (a : Archiver) (elapsed : Nat) : Deaf (run c a elapsed) :=
  .bind (deaf_checkConfig c) fun _ => .bind (Run.deaf_say _) fun _ =>
    .bind (Run.deaf_work _) fun _ =>
    .bind (Run.deaf_say _) fun _ => .bind (Run.deaf_work _) fun r =>
      deaf_finishRun c a elapsed r.1 r.2

/-! ## Whole runs -/

/-- A run that tells its progress to a sink which takes only so many bytes comes to the same as
with a sink that takes them all: the same result but for the time it took, the same requests of the
archiver, programs called, log and files. What the sink has taken is the beginning of what the
other one has. -/
theorem broken_sink_unnoticed (c : Config) (a : Archiver) (elapsed elapsed' n : Nat) (s : Session) :
    let broken := run c a elapsed { s with out := { room := some n } }
    let endless := run c a elapsed' { s with out := {} }
    (outcomeOf broken).map (·.timed 0) = (outcomeOf endless).map (·.timed 0) ∧
      (leftBy broken).workshop = (leftBy endless).workshop ∧
      (leftBy broken).requests = (leftBy endless).requests ∧
      (leftBy broken).out.taken = (leftBy endless).out.taken.take n := by
  intro broken endless
  obtain ⟨lines, heard⟩ := deaf_run c a elapsed s
  have short : broken = _ := heard { room := some n }
  have whole : endless = _ := run_elapsed c a elapsed elapsed' { s with out := {} }
  rw [heard {}] at whole
  rw [short, whole, Sink.foldl_writeLine, Sink.foldl_writeLine]
  cases run c a elapsed s with
  | ok summary s' => simp [toldTo, outcomeOf, Except.map, Summary.timed, Sink.write]
  | error e s' => simp [toldTo, outcomeOf, Except.map, Sink.write]

end ClassPack
