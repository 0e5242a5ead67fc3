import ClassPack.Proofs.Archiving
import ClassPack.Proofs.Text.Showing

/-!
# JarOutcome — what the program `jar` comes to

* `Output.Explains` — the text that goes with a failure is what the program says on its error
  stream, else what it says on its output stream; `Output.explains_diagnostic`;
* `jarArchiver_of_made` — once the directories above an archive are there, one call of the
  program decides;
* `jarArchiver_outcome` — what becomes of the archiver's result, the calls and the file system,
  whatever an executor answers.
-/

namespace ClassPack

open FileSystem

variable {staged archive : String} {w w₁ : Workshop}

/-! ## What a program says -/

namespace Output

variable {o : Output} {words said : List Char}

/-- A text that explains an output. It has something to say, without white space around it. It is
what the error stream says, if that says anything, and then the output stream does not matter.
Otherwise it is what the output stream says or a sentence for silence, and what the silent error
stream holds does not matter. -/
structure Explains (o : Output) (text : String) : Prop where
  some : text ≠ ""
  head : ∀ c, text.toList.head? = .some c → Blank.isBlankChar c = false
  last : ∀ c, text.toList.getLast? = .some c → Blank.isBlankChar c = false
  stderr : ∀ words, Utf8.Speaks o.stderr words → words ≠ [] →
    text = String.ofList words ∧ ∀ stdout, { o with stdout }.diagnostic = text
  stdout : ∀ said, Utf8.Speaks o.stderr [] → Utf8.Speaks o.stdout said →
    text = (if said ≠ [] then String.ofList said else "no diagnostic output") ∧
      ∀ stderr, Utf8.Speaks stderr [] → { o with stderr }.diagnostic = text

theorem diagnostic_eq (h : Utf8.Speaks o.stderr words) (h' : Utf8.Speaks o.stdout said) :
    o.diagnostic =
      if words ≠ [] then String.ofList words else if said ≠ [] then String.ofList said
      else "no diagnostic output" := by
  have stderr : Blank.trim (Utf8.lossy o.stderr) = String.ofList words := by
    rw [Utf8.speaks_iff.1 h, Blank.trim, Utf8.lossy, String.toList_ofList]
  have stdout : Blank.trim (Utf8.lossy o.stdout) = String.ofList said := by
    rw [Utf8.speaks_iff.1 h', Blank.trim, Utf8.lossy, String.toList_ofList]
  simp only [diagnostic, stderr, stdout, ne_eq, String.ofList_eq_empty_iff]

/-- What is said and is not nothing is a text without white space around it. -/
theorem ends_of_speaks {bytes : Bytes} (h : Utf8.Speaks bytes words) (some_ : words ≠ []) :
    String.ofList words ≠ "" ∧
      (∀ c, (String.ofList words).toList.head? = .some c → Blank.isBlankChar c = false) ∧
      ∀ c, (String.ofList words).toList.getLast? = .some c → Blank.isBlankChar c = false := by
  obtain ⟨shown, _, trimmed⟩ := h
  rw [String.toList_ofList]
  exact ⟨fun nothing => some_ (String.ofList_eq_empty_iff.1 nothing), trimmed.head, trimmed.last⟩

theorem explains_diagnostic (o : Output) : o.Explains o.diagnostic := by
  have speaks : ∀ bytes, Utf8.Speaks bytes (Blank.trimChars (Utf8.lossyChars bytes)) := fun bytes =>
    Utf8.speaks_iff.2 rfl
  have ends : o.diagnostic ≠ "" ∧
      (∀ c, o.diagnostic.toList.head? = .some c → Blank.isBlankChar c = false) ∧
      ∀ c, o.diagnostic.toList.getLast? = .some c → Blank.isBlankChar c = false := by
    rw [diagnostic_eq (speaks o.stderr) (speaks o.stdout)]
    split
    · rename_i some_
      exact ends_of_speaks (speaks o.stderr) some_
    split
    · rename_i some_
      exact ends_of_speaks (speaks o.stdout) some_
    · refine ⟨by decide, ?_, ?_⟩
      · rintro c ⟨⟩
        decide
      · rintro c ⟨⟩
        decide
  refine ⟨ends.1, ends.2.1, ends.2.2, ?_, ?_⟩
  · intro words h some_
    have told : ∀ stdout, { o with stdout }.diagnostic = String.ofList words := by
      intro stdout
      rw [diagnostic_eq (o := { o with stdout }) h (speaks stdout), if_pos some_]
    exact ⟨told o.stdout, fun stdout => (told stdout).trans (told o.stdout).symm⟩
  · intro said silent h
    have told : ∀ stderr, Utf8.Speaks stderr [] →
        { o with stderr }.diagnostic = if said ≠ [] then String.ofList said
          else "no diagnostic output" := by
      intro stderr silent
      rw [diagnostic_eq (o := { o with stderr }) silent h, if_neg (fun some_ => some_ rfl)]
    exact ⟨told o.stderr silent, fun stderr silent' => (told stderr silent').trans
      (told o.stderr silent).symm⟩

/-- What an output is taken for: a status other than 0 is a failure. -/
def verdict (o : Output) : Except Failure Unit :=
  if o.status.raw = 0 then .ok () else .error (.archiverFailed "jar" o.status o.diagnostic)

end Output

/-! ## The call -/

theorem makeArchiveDirs_eq (archive : String) :
    makeArchiveDirs archive = Work.files .io
      (createDirs ((Path.parent? (Utf8.encode archive)).getD [])) := by
  unfold makeArchiveDirs
  cases Path.parent? (Utf8.encode archive) with
  | none => rfl
  | some parent => rfl

theorem Work.outcomeOf_call (e : Executor) (call : Invocation) (w : Workshop) :
    outcomeOf (Work.call e call w) = (e.run call w.files).1 := by
  unfold Work.call
  split
  · rename_i done
    rw [done]
    rfl
  · rename_i failed
    rw [failed]
    rfl

theorem Work.calls_call (e : Executor) (call : Invocation) (w : Workshop) :
    (leftBy (Work.call e call w)).calls = w.calls ++ [call] := by
  unfold Work.call
  split <;> rfl

/-- Once the directories above are there, the one call decides; it is the last to touch the
file system. -/
theorem jarArchiver_of_made (e : Executor) (staged : String)
    (made : makeArchiveDirs archive w = .ok () w₁) :
    outcomeOf ((jarArchiver e).pack staged archive w) =
        (outcomeOf (Work.call e (jarCall staged archive) w₁)).bind Output.verdict ∧
      (leftBy ((jarArchiver e).pack staged archive w)).calls =
        (leftBy (Work.call e (jarCall staged archive) w₁)).calls ∧
      (leftBy ((jarArchiver e).pack staged archive w)).files =
        (leftBy (Work.call e (jarCall staged archive) w₁)).files := by
  have begun : (jarArchiver e).pack staged archive w =
      (Work.call e (jarCall staged archive) >>= _) w₁ :=
    bind_of_ok made
  cases answer : Work.call e (jarCall staged archive) w₁ with
  | error failure w₂ =>
      rw [begun, bind_of_error answer]
      exact ⟨rfl, rfl, rfl⟩
  | ok output w₂ =>
      rw [begun, bind_of_ok answer]
      by_cases success : output.status.raw = 0
      · have passes : output.status.isSuccess = true := by
          simpa [WaitStatus.isSuccess] using success
        have verdict : output.verdict = .ok () := if_pos success
        rw [if_pos passes]
        exact ⟨verdict.symm, rfl, rfl⟩
      · have fails : ¬ output.status.isSuccess = true := by
          simpa [WaitStatus.isSuccess] using success
        have verdict : output.verdict =
            .error (.archiverFailed "jar" output.status output.diagnostic) :=
          if_neg success
        rw [if_neg fails]
        exact ⟨verdict.symm, rfl, rfl⟩

/-- The archiver makes the directories above the archive, and nothing else by itself. If they
cannot be made, it fails without a call. Otherwise there is one call; its failure is passed on, its
status 0 is success, and any other status is a failure with this status and a text that explains
the output. -/
theorem jarArchiver_outcome (e : Executor) (staged archive : String) (w : Workshop) :
    (let result := (jarArchiver e).pack staged archive w
      let above : Path := (Path.parent? (Utf8.encode archive)).getD []
      let call : Invocation := ⟨"jar", ["cf", archive, "-C", staged, "."]⟩
      match createDirs above w.files with
      | .error fault made =>
          MadeOnWay above w.files made ∧ outcomeOf result = .error (.io fault) ∧
            (leftBy result).calls = w.calls ∧ (leftBy result).files = made
      | .ok () made =>
          MadeOnWay above w.files made ∧ (leftBy result).calls = w.calls ++ [call] ∧
            (leftBy result).files = (e.run call made).2 ∧
            match (e.run call made).1 with
            | .error failure => outcomeOf result = .error failure
            | .ok output =>
                outcomeOf result =
                  if output.status.raw = 0 then .ok ()
                  else .error (.archiverFailed "jar" output.status output.diagnostic)) ∧
      ∀ output : Output, output.Explains output.diagnostic := by
  refine ⟨?_, Output.explains_diagnostic⟩
  intro result above call
  have dirs := makeArchiveDirs_eq archive
  have made := createDirs_made above w.files
  cases creating : createDirs above w.files with
  | error fault left =>
      rw [creating] at made
      have stopped : makeArchiveDirs archive w = .error (.io fault) { w with files := left } := by
        rw [dirs]
        simp [Work.files, above, creating]
      have failed : result = .error (.io fault) { w with files := left } := bind_of_error stopped
      rw [failed]
      exact ⟨made, rfl, rfl, rfl⟩
  | ok _ left =>
      rw [creating] at made
      have went : makeArchiveDirs archive w = .ok () { w with files := left } := by
        rw [dirs]
        exact Work.files_of_ok creating
      obtain ⟨outcome, calls, files⟩ := jarArchiver_of_made e staged went
      rw [Work.outcomeOf_call] at outcome
      rw [Work.calls_call] at calls
      rw [Work.leftBy_call] at files
      refine ⟨made, calls, files, ?_⟩
      cases answer : (e.run call left).1 with
      | error failure =>
          have passed : outcomeOf result =
              (Except.error failure : Except Failure Output).bind Output.verdict :=
            answer ▸ outcome
          exact passed
      | ok output =>
          have judged : outcomeOf result =
              (Except.ok output : Except Failure Output).bind Output.verdict :=
            answer ▸ outcome
          exact judged

/-- A program that is killed; its last words break off in the middle of a character. -/
example :
    let last : Output :=
      ⟨.killed 9, Utf8.encode "ignored", 0x20 :: 0xE2 :: 0x82 :: Utf8.encode " no memory\u3000\n"⟩
    let e : Executor := ⟨fun _ => [], fun _ fs => (.ok last, fs)⟩
    outcomeOf ((jarArchiver e).pack "/lib/classes" "/lib/b42.jar" ⟨.empty {}, [], []⟩) =
      .error (.archiverFailed "jar" ⟨9⟩ "\uFFFD no memory") := by
  decide +kernel

end ClassPack
