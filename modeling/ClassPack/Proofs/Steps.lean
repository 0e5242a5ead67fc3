import ClassPack.Packaging

/-!
# Steps — calls, work and runs taken apart

* `leftBy`, the state that a result leaves, whether it is a value or a failure, and
  `resultOf?`, the value;
* `bind_eq_ok`, how steps that go well go well one by one, `bind_eq_error`, which of them fails, the
  same for the steps of a list with `forM_append_eq_ok` and `forM_eq_error`, and for each basic step
  what it leaves.
-/

namespace ClassPack

section Results

variable {ε σ α β : Type} {x : EStateM ε σ α} {f : α → EStateM ε σ β} {s s' : σ}

/-- What a result leaves of the state. -/
def leftBy : EStateM.Result ε σ α → σ
  | .ok _ left | .error _ left => left

@[simp] theorem leftBy_ok (a : α) (left : σ) : leftBy (.ok a left : EStateM.Result ε σ α) = left :=
  rfl

@[simp] theorem leftBy_error (e : ε) (left : σ) :
    leftBy (.error e left : EStateM.Result ε σ α) = left := rfl

theorem bind_of_ok {a : α} (h : x s = .ok a s') : (x >>= f) s = f a s' := by
  show EStateM.bind x f s = _
  simp [EStateM.bind, h]

theorem bind_of_error {e : ε} (h : x s = .error e s') : (x >>= f) s = .error e s' := by
  show EStateM.bind x f s = _
  simp [EStateM.bind, h]

/-- States that the first step does not tell apart are not told apart by what follows. -/
theorem bind_congr_state (h : x s = x s') : (x >>= f) s = (x >>= f) s' := by
  show EStateM.bind x f s = EStateM.bind x f s'
  simp only [EStateM.bind, h]

theorem bind_eq_ok {b : β} :
    (x >>= f) s = .ok b s' ↔ ∃ a s₁, x s = .ok a s₁ ∧ f a s₁ = .ok b s' := by
  cases first : x s with
  | ok a s₁ =>
      rw [bind_of_ok first]
      constructor
      · intro h
        exact ⟨a, s₁, rfl, h⟩
      · rintro ⟨_, _, same, h⟩
        cases same
        exact h
  | error e s₁ => simp [bind_of_error first]

theorem bind_eq_error {e : ε} :
    (x >>= f) s = .error e s' ↔
      x s = .error e s' ∨ ∃ a s₁, x s = .ok a s₁ ∧ f a s₁ = .error e s' := by
  cases first : x s with
  | ok a s₁ =>
      rw [bind_of_ok first]
      constructor
      · intro h
        exact .inr ⟨a, s₁, rfl, h⟩
      · rintro (stopped | ⟨_, _, same, h⟩)
        · cases stopped
        · cases same
          exact h
  | error e₁ s₁ => simp [bind_of_error first]

/-- Steps of two lists go well if those of the first do, and then those of the second. -/
theorem forM_append_eq_ok {f : α → EStateM ε σ PUnit} {before after : List α} :
    forM (before ++ after) f s = .ok () s' ↔
      ∃ s₁, forM before f s = .ok () s₁ ∧ forM after f s₁ = .ok () s' := by
  rw [List.forM_append, bind_eq_ok]
  exact ⟨fun ⟨_, s₁, first, rest⟩ => ⟨s₁, first, rest⟩, fun ⟨s₁, first, rest⟩ =>
    ⟨_, s₁, first, rest⟩⟩

/-- Steps of a list fail at the first one that does; those before it went well. -/
theorem forM_eq_error {e : ε} {f : α → EStateM ε σ PUnit} {l : List α}
    (h : forM l f s = .error e s') : ∃ before a after s₁, l = before ++ a :: after ∧
    forM before f s = .ok () s₁ ∧ f a s₁ = .error e s' := by
  induction l generalizing s with
  | nil => cases h
  | cons first rest ih =>
      rw [List.forM_cons] at h
      rcases bind_eq_error.1 h with stopped | ⟨_, s₁, went, h⟩
      · exact ⟨[], first, rest, s, rfl, rfl, stopped⟩
      · obtain ⟨before, a, after, s₂, rfl, later, stopped⟩ := ih h
        exact ⟨first :: before, a, after, s₂, rfl, by
          rw [List.forM_cons]
          exact bind_eq_ok.2 ⟨_, s₁, went, later⟩, stopped⟩

/-- The value of a result, if there is one. -/
def resultOf? : EStateM.Result ε σ α → Option α
  | .ok a _ => some a
  | .error _ _ => none

/-- What comes of it, the state apart. -/
def outcomeOf : EStateM.Result ε σ α → Except ε α
  | .ok a _ => .ok a
  | .error e _ => .error e

theorem resultOf?_eq_some {r : EStateM.Result ε σ α} {a : α} (h : resultOf? r = some a) :
    ∃ s, r = .ok a s := by
  cases r with
  | ok b s =>
      cases h
      exact ⟨s, rfl⟩
  | error e s => cases h

end Results

/-! ## Work -/

namespace Work

variable {α : Type} {w w' : Workshop} {calls : FileSystem.Calls α} {failure : IoFault → Failure}

theorem files_eq_ok {a : α} (h : Work.files failure calls w = .ok a w') :
    calls w.files = .ok a w'.files := by
  unfold files at h
  split at h
  · rename_i done
    cases h
    exact done
  · simp at h

theorem files_of_ok {a : α} {fs : FileSystem} (h : calls w.files = .ok a fs) :
    Work.files failure calls w = .ok a { w with files := fs } := by
  simp [Work.files, h]

theorem files_eq_error {e : Failure} (h : Work.files failure calls w = .error e w') :
    ∃ fault, calls w.files = .error fault w'.files := by
  unfold files at h
  split at h
  · simp at h
  · rename_i fault _ failed
    cases h
    exact ⟨fault, failed⟩

/-- What refuses calls is put into words. -/
theorem failure_of_files {e : Failure} (h : Work.files failure calls w = .error e w') :
    ∃ fault, e = failure fault := by
  unfold files at h
  split at h
  · cases h
  · rename_i fault _ _
    cases h
    exact ⟨fault, rfl⟩

theorem log_ok (level : Level) (message : String) (w : Workshop) :
    ∃ w', Work.log level message w = .ok () w' ∧ w'.files = w.files := ⟨_, rfl, rfl⟩

theorem files_of_log {level : Level} {message : String} {u : Unit}
    (h : Work.log level message w = .ok u w') : w'.files = w.files := by
  cases h
  rfl

theorem leftBy_files (failure : IoFault → Failure) (calls : FileSystem.Calls α) (w : Workshop) :
    (leftBy (Work.files failure calls w)).files = leftBy (calls w.files) := by
  unfold files
  split <;> simp_all

end Work
end ClassPack
