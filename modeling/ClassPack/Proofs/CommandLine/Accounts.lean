import ClassPack.CommandLine.Reading
import ClassPack.Proofs.FileSystem.Leads

/-!
# Accounts — what has been read is accounted for

* `Options.Makes` — the keys under which choices were made that are not the defaults;
* `Reading.Accounts` — each of these keys was given, and numbers are within their bounds. Every step
  of a reading keeps it so, whatever the arguments are;
* `consistent_of_accounts` — so choices that exclude each other are seen by the check at the end.
-/

namespace ClassPack

/-- Under which keys choices were made that are not the defaults. -/
def Options.Makes (o : Options) : Key → Prop
  | .option .sourceArgument => o.sourceArgument ≠ none
  | .option .source => o.source ≠ none
  | .option .outDir => o.outDir ≠ ({} : Options).outDir
  | .option .stagingDir => o.stagingDir ≠ ({} : Options).stagingDir
  | .option .gameVersion => o.gameVersion ≠ ({} : Options).gameVersion
  | .option .archiveExtension => o.archiveExtension ≠ ({} : Options).archiveExtension
  | .option .archiver => o.archiver ≠ ({} : Options).archiver
  | .option .archiverTimeout => o.archiverTimeout ≠ none
  | .option .workingDir => o.workingDir ≠ none
  | .flag .dryRun => o.dryRun = true
  | .flag .verbose => 0 < o.verbosity
  | .flag .quiet => o.quiet = true
  | .flag .json => o.json = true
  | .flag .help | .flag .version => False

/-- Numbers are within their bounds. -/
def Options.InBounds (o : Options) : Prop :=
  (∀ n ∈ o.archiverTimeout, 1 ≤ n ∧ n < UInt64.size) ∧ o.verbosity ≤ 255

theorem bounds_of_secondsOf? {s : String} {n : Nat} (h : secondsOf? s = some n) :
    1 ≤ n ∧ n < UInt64.size := by
  unfold secondsOf? at h
  simp only [Option.ite_none_right_eq_some, Option.some.injEq] at h
  obtain ⟨_, bounds, rfl⟩ := h
  exact bounds

namespace Reading

variable {o o' : Options} {r r' : Reading} {key : ValueOption} {value : String} {k : Key}

/-- A value that is set makes a choice under its own key at most. -/
theorem makes_of_setValue (set : setValue o key value = .ok o') (makes : o'.Makes k) :
    k = .option key ∨ o.Makes k := by
  by_cases same : k = .option key
  · exact .inl same
  · -- All other choices are as they were, key by key.
    have kept : o.Makes k := by
      cases key with
      | archiver | archiverTimeout =>
          simp only [setValue] at set
          split at set
          · cases set
            rcases k with (_ | _) | (_ | _) <;> first | exact makes | exact absurd rfl same
          · cases set
      | _ =>
          cases set
          rcases k with (_ | _) | (_ | _) <;> first | exact makes | exact absurd rfl same
    exact .inr kept

theorem inBounds_of_setValue (set : setValue o key value = .ok o') (bounds : o.InBounds) :
    o'.InBounds := by
  cases key with
  | archiver =>
      simp only [setValue] at set
      split at set
      · cases set
        exact bounds
      · cases set
  | archiverTimeout =>
      simp only [setValue] at set
      split at set
      · rename_i n read
        cases set
        refine ⟨?_, bounds.2⟩
        rintro _ ⟨⟩
        exact bounds_of_secondsOf? read
      · cases set
  | _ =>
      cases set
      exact bounds

/-- Each choice that is not the default was given, and numbers are within their bounds. -/
structure Accounts (r : Reading) : Prop where
  given : ∀ k, r.options.Makes k → k ∈ r.given
  bounds : r.options.InBounds

/-- What is still pending does not count. -/
theorem Accounts.congr (h : r.Accounts) (options : r'.options = r.options)
    (given : r'.given = r.given) : r'.Accounts where
  given k := by
    rw [options, given]
    exact h.given k
  bounds := options ▸ h.bounds

/-! ## Steps -/

theorem Accounts.store (h : r.Accounts) (stored : r.store key value = .ok r') : r'.Accounts := by
  unfold Reading.store at stored
  split at stored
  · cases stored
  · obtain ⟨options, set, last⟩ := ok_of_bind stored
    cases last
    refine ⟨fun k makes => ?_, inBounds_of_setValue set h.bounds⟩
    rcases makes_of_setValue set makes with rfl | before
    · exact List.mem_cons_self
    · exact List.mem_cons_of_mem _ (h.given k before)

theorem Accounts.flush (h : r.Accounts) (flushed : r.flush = .ok r') : r'.Accounts := by
  unfold Reading.flush at flushed
  split at flushed
  · cases flushed
    exact h
  · cases flushed
  · exact (h.congr rfl rfl : Accounts { r with pending := none }).store flushed

theorem Accounts.raise {flag : Flag} (h : r.Accounts) (raised : r.raise flag = .ok r') :
    r'.Accounts := by
  obtain ⟨r₁, flushed, raised⟩ := ok_of_bind raised
  have h₁ := h.flush flushed
  -- A flag changes nothing but the choice under its own key.
  have one : ∀ {options : Options}, options.InBounds →
      (∀ k, options.Makes k → k = .flag flag ∨ r₁.options.Makes k) →
        Accounts { r₁ with options, given := .flag flag :: r₁.given } := fun bounds makes =>
    ⟨fun k made => (makes k made).elim (fun own => own ▸ List.mem_cons_self) fun before =>
      List.mem_cons_of_mem _ (h₁.given k before), bounds⟩
  cases flag with
  | help | version => cases raised
  | verbose =>
      cases raised
      refine one ⟨h₁.bounds.1, Nat.min_le_left ..⟩ fun k made => ?_
      rcases k with (_ | _) | (_ | _) <;> first | exact .inl rfl | exact .inr made
  | dryRun | quiet | json =>
      dsimp only at raised
      split at raised
      · cases raised
      · cases raised
        refine one h₁.bounds fun k made => ?_
        rcases k with (_ | _) | (_ | _) <;> first | exact .inl rfl | exact .inr made

theorem Accounts.attach (h : r.Accounts) (attached : r.attach key value = .ok r') :
    r'.Accounts := by
  obtain ⟨r₁, flushed, stored⟩ := ok_of_bind attached
  exact (h.flush flushed).store stored

theorem Accounts.await (h : r.Accounts) (awaited : r.await key = .ok r') : r'.Accounts := by
  obtain ⟨r₁, flushed, last⟩ := ok_of_bind awaited
  cases last
  exact (h.flush flushed).congr rfl rfl

theorem Accounts.long {text : List Char} (h : r.Accounts) (read : r.long text = .ok r') :
    r'.Accounts := by
  unfold Reading.long at read
  dsimp only at read
  split at read
  · cases read
  · exact h.attach read
  · exact h.await read
  · cases read
  · exact h.raise read

theorem Accounts.letters {text : List Char} (h : r.Accounts) (read : r.letters text = .ok r') :
    r'.Accounts := by
  fun_induction Reading.letters r text with
  | case1 => cases read; exact h
  | case2 => cases read
  | case3 r c rest flag known r₁ raised ih => exact ih (h.raise raised) read
  | case4 => cases read
  | case5 => exact h.await read
  | case6 => exact h.attach read
  | case7 => exact h.attach read

theorem Accounts.argument {text : String} (h : r.Accounts) (read : r.argument text = .ok r') :
    r'.Accounts := by
  unfold Reading.argument at read
  split at read
  · cases read
  · obtain ⟨r₁, flushed, last⟩ := ok_of_bind read
    cases last
    exact (h.flush flushed).congr rfl rfl

/-- Whatever is read, all of it is accounted for. -/
theorem Accounts.readAll {plain : Bool} {args : List String} (h : r.Accounts)
    (read : readAll plain r args = .ok r') : r'.Accounts := by
  induction args generalizing plain r with
  | nil => exact h.flush read
  | cons text rest ih =>
      unfold Reading.readAll at read
      split at read
      · obtain ⟨r₁, first, later⟩ := ok_of_bind read
        exact ih (h.argument first) later
      · split at read
        · exact ih h read
        · obtain ⟨r₁, first, later⟩ := ok_of_bind read
          exact ih (h.long first) later
        · obtain ⟨r₁, first, later⟩ := ok_of_bind read
          exact ih (h.letters first) later
        · split at read
          · refine ih ?_ read
            exact h.congr rfl rfl
          · obtain ⟨r₁, first, later⟩ := ok_of_bind read
            exact ih (h.argument first) later

/-! ## The check at the end -/

/-- What is accounted for and passes the check holds no choices that exclude each other. -/
theorem consistent_of_accounts (h : r.Accounts) (checked : r.hasConflict = false) :
    r.options.Consistent := by
  have clear : ∀ {a b : Key}, (r.given.contains a && r.given.contains b) = false →
      r.options.Makes a → ¬ r.options.Makes b := by
    intro a b apart first second
    simp [h.given a first, h.given b second] at apart
  simp only [hasConflict, Bool.or_eq_false_iff] at checked
  obtain ⟨⟨sources, reports⟩, words⟩ := checked
  refine ⟨fun both => ?_, fun both => ?_, fun both => ?_, h.bounds.1, h.bounds.2⟩
  · exact clear sources (Option.isSome_iff_ne_none.1 both.1) (Option.isSome_iff_ne_none.1 both.2)
  · exact clear reports both.1 both.2
  · exact clear words both.1 both.2

end Reading

/-- Choices that have been read do not exclude each other, and their numbers are within their
bounds. -/
theorem Options.consistent_of_ofArgs {args : List String} {o : Options}
    (h : Options.ofArgs args = .ok o) : o.Consistent := by
  obtain ⟨r, read, h⟩ := ok_of_bind h
  have start : Reading.Accounts {} := by
    refine ⟨fun k makes => ?_, by simp [InBounds]⟩
    rcases k with (_ | _) | (_ | _) <;> simp [Makes] at makes
  split at h
  · cases h
  · rename_i checked
    cases h
    exact Reading.consistent_of_accounts (start.readAll read) (by simpa using checked)

end ClassPack
