import ClassPack.Proofs.Steps

/-!
# Timeout — what a bound on a child's time does to its output

With a timeout nobody reads from a child before it has ended, so all that it prints has to fit
into the pipes.

* `Progress.after` — what one act does to a child that nothing holds up; `Child.output` and
  `Child.duration`, what the child then prints to a stream and how long it takes;
* `Child.play_spec` — a child comes to its end just if all it does stays within the bounds, and then
  it has done all its acts: `run_timed`, and `run_untimed` without bounds;
* `timeout_agrees_iff` — so the output is the same with a timeout and without one just if both pipes
  hold it, for every child that takes no longer than the timeout. One that prints more is stopped:
  `timeout_stops_talker`.
-/

namespace ClassPack

/-! ## One act -/

namespace Act

/-- What an act prints to a stream. -/
def output : Act → Stream → Bytes
  | .print pipe bytes, stream => if pipe = stream then bytes else []
  | .pause _, _ | .store _ _, _ => []

/-- How long an act takes. -/
def duration : Act → Nat
  | .pause time => time
  | .print _ _ | .store _ _ => 0

end Act

namespace Progress

variable {p : Progress} {act : Act} {acts : List Act} {capacity deadline : Option Nat}

/-- How far a child has come after one more act that nothing holds up. -/
def after (p : Progress) : Act → Progress
  | .pause time => { p with elapsed := p.elapsed + time }
  | .print stream bytes => p.print stream bytes
  | .store path bytes =>
      { p with files := leftBy (FileSystem.writeFile path (.plain bytes) p.files) }

theorem printed_after (p : Progress) (act : Act) (stream : Stream) :
    (p.after act).printed stream = p.printed stream ++ act.output stream := by
  cases act with
  | pause time => cases stream <;> simp [after, printed, Act.output]
  | print pipe bytes => cases pipe <;> cases stream <;> simp [after, print, printed, Act.output]
  | store path bytes => cases stream <;> simp [after, printed, Act.output]

theorem elapsed_after (p : Progress) (act : Act) :
    (p.after act).elapsed = p.elapsed + act.duration := by
  cases act with
  | pause time => rfl
  | print pipe bytes => cases pipe <;> rfl
  | store path bytes => rfl

/-- A child has stayed within its time, and each pipe holds what was printed to it. -/
structure Within (capacity deadline : Option Nat) (p : Progress) : Prop where
  elapsed : isBeyond p.elapsed deadline = false
  printed : ∀ stream, isBeyond (p.printed stream).length capacity = false

end Progress

theorem isBeyond_mono {m n : Nat} {bound : Option Nat} (le : m ≤ n) (h : isBeyond n bound = false) :
    isBeyond m bound = false := by
  cases bound with
  | none => rfl
  | some bound =>
      simp only [isBeyond, decide_eq_false_iff_not, Nat.not_lt] at h ⊢
      exact Nat.le_trans le h

/-- What has stayed within the bounds was within them before the last act. -/
theorem Progress.Within.of_after {p : Progress} {act : Act} {capacity deadline : Option Nat}
    (h : (p.after act).Within capacity deadline) : p.Within capacity deadline where
  elapsed := isBeyond_mono (by rw [elapsed_after]; omega) h.elapsed
  printed stream := isBeyond_mono (by rw [printed_after]; simp) (h.printed stream)

theorem Progress.Within.of_foldl {p : Progress} {acts : List Act} {capacity deadline : Option Nat}
    (h : (acts.foldl after p).Within capacity deadline) : p.Within capacity deadline := by
  induction acts generalizing p with
  | nil => exact h
  | cons act rest ih => exact (ih h).of_after

/-! ## Children that come to their end -/

namespace Child

variable {p : Progress} {capacity deadline : Option Nat}

/-- All that a child prints to a stream if it comes to its end. -/
def output (child : Child) (stream : Stream) : Bytes := child.acts.flatMap (·.output stream)

/-- How long a child takes if nothing holds it up. -/
def duration (child : Child) : Nat := child.acts.foldr (fun act rest => act.duration + rest) 0

/-- An act that stays within the bounds is done, and any other stops the child. -/
theorem play_cons (act : Act) (acts : List Act) (within : p.Within capacity deadline) :
    ((p.after act).Within capacity deadline ∧
        play capacity deadline (act :: acts) p = play capacity deadline acts (p.after act)) ∨
      ¬ (p.after act).Within capacity deadline ∧ (play capacity deadline (act :: acts) p).2 =
        false := by
  cases act with
  | pause time =>
      cases late : isBeyond (p.elapsed + time) deadline with
      | true =>
          exact .inr ⟨fun h => absurd (late.symm.trans h.elapsed) (by decide), by simp [play, late]⟩
      | false => exact .inl ⟨⟨late, within.printed⟩, by simp [play, late, Progress.after]⟩
  | print pipe bytes =>
      cases full : isBeyond ((p.print pipe bytes).printed pipe).length capacity with
      | true =>
          exact .inr ⟨fun h => absurd (full.symm.trans (h.printed pipe)) (by decide), by
            simp [play, full]⟩
      | false =>
          have untimed : (p.after (.print pipe bytes)).elapsed = p.elapsed :=
            Progress.elapsed_after p (.print pipe bytes)
          refine .inl ⟨⟨untimed ▸ within.elapsed, fun stream => ?_⟩, by
            simp [play, full, Progress.after]⟩
          by_cases same : pipe = stream
          · exact same ▸ full
          · -- To the other pipe nothing was printed.
            rw [Progress.printed_after]
            simpa [Act.output, same] using within.printed stream
  | store path bytes =>
      refine .inl ⟨⟨within.elapsed, within.printed⟩, ?_⟩
      cases stored : FileSystem.writeFile path (.plain bytes) p.files <;>
        simp [play, stored, Progress.after]

/-- A child comes to its end just if all its acts stay within the bounds, and then it has
done them all. -/
theorem play_spec (acts : List Act) (within : p.Within capacity deadline) :
    ((acts.foldl .after p).Within capacity deadline ∧
        play capacity deadline acts p = (acts.foldl .after p, true)) ∨
      ¬ (acts.foldl .after p).Within capacity deadline ∧
      (play capacity deadline acts p).2 = false := by
  induction acts generalizing p with
  | nil => exact .inl ⟨within, rfl⟩
  | cons act rest ih =>
      rcases play_cons act rest within with ⟨within', onward⟩ | ⟨beyond, stopped⟩
      · rw [onward]
        exact ih within'
      · -- What is beyond the bounds stays so.
        refine .inr ⟨fun later => beyond ?_, stopped⟩
        have onward : (rest.foldl .after (p.after act)).Within capacity deadline := later
        exact onward.of_foldl

theorem elapsed_foldl (acts : List Act) (p : Progress) :
    (acts.foldl .after p).elapsed =
      p.elapsed + acts.foldr (fun act rest => act.duration + rest) 0 := by
  induction acts generalizing p with
  | nil => rfl
  | cons act rest ih => simp [ih, Progress.elapsed_after, Nat.add_assoc]

theorem printed_foldl (acts : List Act) (p : Progress) (stream : Stream) :
    (acts.foldl .after p).printed stream = p.printed stream ++ acts.flatMap (·.output stream) := by
  induction acts generalizing p with
  | nil => simp
  | cons act rest ih => simp [ih, Progress.printed_after]

end Child

/-! ## Executors -/

section Executors

variable {host : Host} {call : Invocation} {child : Child} {time : Nat}

/-- How far a child has come at its end if nothing holds it up. -/
def Child.done (child : Child) (fs : FileSystem) : Progress :=
  child.acts.foldl .after ⟨0, [], [], fs⟩

theorem Child.elapsed_done (child : Child) (fs : FileSystem) :
    (child.done fs).elapsed = child.duration := by
  simp [done, elapsed_foldl, duration]

theorem Child.printed_done (child : Child) (fs : FileSystem) (stream : Stream) :
    (child.done fs).printed stream = child.output stream := by
  rw [done, printed_foldl, output]
  cases stream <;> simp [Progress.printed]

/-- Without a timeout every child comes to its end, and all that it printed has been read. -/
theorem run_untimed (started : host.start call = .ok child) (fs : FileSystem) :
    (systemExecutor host none).run call fs =
      (.ok ⟨child.status, child.output .stdout, child.output .stderr⟩, (child.done fs).files) := by
  have unbounded : ∀ p : Progress, p.Within none none := fun p => ⟨rfl, fun _ => rfl⟩
  obtain ⟨_, ended⟩ := (Child.play_spec child.acts (unbounded ⟨0, [], [], fs⟩)).resolve_right
    fun stopped => stopped.1 (unbounded _)
  rw [← child.printed_done fs, ← child.printed_done fs]
  simp only [systemExecutor, started, Option.map_none, ended]
  rfl

/-- With a timeout a child that is fast enough comes to its end just if each pipe holds what it
prints. -/
theorem run_timed (started : host.start call = .ok child) (punctual : child.duration ≤ time)
    (fs : FileSystem) :
    ((∀ stream, (child.output stream).length ≤ pipeCapacity) ∧
        (systemExecutor host (some time)).run call fs =
          (.ok ⟨child.status, child.output .stdout, child.output .stderr⟩, (child.done fs).files)) ∨
      ¬ (∀ stream, (child.output stream).length ≤ pipeCapacity) ∧
        ((systemExecutor host (some time)).run call fs).1 =
          .error (.archiverTimeout call.program (time / 1000)) := by
  have fits : (child.done fs).Within (some pipeCapacity) (some time) ↔
      ∀ stream, (child.output stream).length ≤ pipeCapacity := by
    constructor
    · intro within stream
      simpa [isBeyond, child.printed_done fs] using within.printed stream
    · intro short
      refine ⟨by simpa [isBeyond, child.elapsed_done fs] using punctual, fun stream => ?_⟩
      simpa [isBeyond, child.printed_done fs] using short stream
  have begins : (⟨0, [], [], fs⟩ : Progress).Within (some pipeCapacity) (some time) :=
    ⟨by simp [isBeyond], fun stream => by cases stream <;> simp [isBeyond, Progress.printed]⟩
  rcases Child.play_spec child.acts begins with ⟨within, ended⟩ | ⟨beyond, stopped⟩
  · refine .inl ⟨fits.1 within, ?_⟩
    rw [← child.printed_done fs, ← child.printed_done fs]
    simp only [systemExecutor, started, Option.map_some, ended]
    rfl
  · refine .inr ⟨fun short => beyond (fits.2 short), ?_⟩
    simp only [systemExecutor, started, Option.map_some]
    rw [← Prod.eta (Child.play _ _ _ _), stopped]

/-- A child that takes no longer than the timeout has the same output with the timeout as without
one just if each pipe holds all that it prints there; otherwise it is stopped. Without a timeout its
whole output is read. -/
theorem timeout_agrees_iff (host : Host) (call : Invocation) (fs : FileSystem) (time : Nat)
    (punctual : ∀ child, host.start call = .ok child → child.duration ≤ time) :
    ((systemExecutor host (some time)).run call fs = (systemExecutor host none).run call fs ↔
        ∀ child, host.start call = .ok child →
          ∀ stream, (child.output stream).length ≤ pipeCapacity) ∧
      ∀ child, host.start call = .ok child →
        ((systemExecutor host none).run call fs).1 =
            .ok ⟨child.status, child.output .stdout, child.output .stderr⟩ ∧
          (¬ (∀ stream, (child.output stream).length ≤ pipeCapacity) →
            ((systemExecutor host (some time)).run call fs).1 =
              .error (.archiverTimeout call.program (time / 1000))) := by
  cases started : host.start call with
  | error e => simp [systemExecutor, started]
  | ok child =>
      simp only [Except.ok.injEq, forall_eq']
      have untimed := run_untimed started fs
      rcases run_timed started (punctual child started) fs with ⟨short, timed⟩ | ⟨long, stopped⟩
      · exact ⟨by simp [timed, untimed, short], by rw [untimed], fun long => absurd short long⟩
      · refine ⟨⟨fun same => ?_, fun short => absurd short long⟩, by rw [untimed], fun _ => stopped⟩
        -- An output is no failure.
        rw [same, untimed] at stopped
        cases stopped

end Executors

/-! ## A program that talks much -/

/-- A program that prints so many bytes and ends. -/
def talker (length : Nat) : Child := ⟨[.print .stdout (List.replicate length 0x78)], .exited 0⟩

/-- A host whose one program prints so many bytes. -/
def talkingHost (length : Nat) : Host := .ofPrograms [("talk", fun _ => talker length)]

theorem start_talker (length : Nat) :
    (talkingHost length).start ⟨"talk", []⟩ = .ok (talker length) := rfl

theorem output_talker (length : Nat) (stream : Stream) :
    (talker length).output stream = if stream = .stdout then List.replicate length 0x78
      else [] := by
  cases stream <;> simp [talker, Child.output, Act.output]

theorem timeout_agrees_filled_pipe :
    (talker pipeCapacity).duration ≤ 1000 ∧
      (systemExecutor (talkingHost pipeCapacity) (some 1000)).run ⟨"talk", []⟩ (.empty {}) =
        (systemExecutor (talkingHost pipeCapacity) none).run ⟨"talk", []⟩ (.empty {}) := by
  have punctual : ∀ child, (talkingHost pipeCapacity).start ⟨"talk", []⟩ = .ok child →
      child.duration ≤ 1000 := by
    rintro child ⟨⟩
    exact Nat.zero_le _
  have agrees :=
    (timeout_agrees_iff (talkingHost pipeCapacity) ⟨"talk", []⟩ (.empty {}) 1000 punctual).1
  refine ⟨Nat.zero_le _, agrees.2 ?_⟩
  rintro child ⟨⟩ stream
  rw [output_talker]
  cases stream <;> simp

/-- One byte more than a pipe holds, and a child that takes no time at all is stopped. -/
theorem timeout_stops_talker :
    (talkingHost 65537).start ⟨"talk", []⟩ = .ok (talker 65537) ∧ (talker 65537).duration = 0 ∧
      ((systemExecutor (talkingHost 65537) none).run ⟨"talk", []⟩ (.empty {})).1 =
        .ok ⟨.exited 0, List.replicate 65537 0x78, []⟩ ∧
      ((systemExecutor (talkingHost 65537) (some 1000)).run ⟨"talk", []⟩ (.empty {})).1 =
        .error (.archiverTimeout "talk" 1) := by
  have started := start_talker 65537
  refine ⟨started, rfl, ?_, ?_⟩
  · rw [run_untimed started, output_talker, output_talker]
    rfl
  · have long : ¬ ∀ stream, ((talker 65537).output stream).length ≤ pipeCapacity := fun short => by
      have fits := short .stdout
      rw [output_talker, if_pos rfl, List.length_replicate] at fits
      exact absurd fits (by decide)
    exact ((run_timed started (Nat.zero_le 1000) (.empty {})).resolve_left fun fits =>
      long fits.1).2

end ClassPack
