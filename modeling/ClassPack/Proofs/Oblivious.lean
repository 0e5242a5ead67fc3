import ClassPack.Proofs.Running

/-!
# Oblivious — steps that only the files matter to

* `Oblivious steps` — begun on the same files, the steps come to the same and leave the same files,
  whatever is in the log and whichever programs were called. It is so of the basic steps, and of
  those that are made of such;
* `oblivious_finish` — it is so of all that a run does once the staging directory is filled, if it
  packs the archive itself.
-/

namespace ClassPack

open FileSystem

variable {α β : Type} {w w' v : Workshop}

/-- Begun on the same files, the steps come to the same and leave the same files. -/
def Oblivious (steps : Work α) : Prop :=
  ∀ w v : Workshop, v.files = w.files →
    outcomeOf (steps v) = outcomeOf (steps w) ∧ (leftBy (steps v)).files = (leftBy (steps w)).files

namespace Oblivious

variable {steps : Work α} {next : α → Work β}

/-- What goes well goes well again on the same files. -/
theorem ok {a : α} (h : Oblivious steps) (done : steps w = .ok a w') (same : v.files = w.files) :
    ∃ v', steps v = .ok a v' ∧ v'.files = w'.files := by
  obtain ⟨outcome, files⟩ := h w v same
  rw [done] at outcome files
  cases again : steps v with
  | ok b v' =>
      rw [again] at outcome files
      cases outcome
      exact ⟨v', rfl, files⟩
  | error e v' =>
      rw [again] at outcome
      cases outcome

theorem pure (a : α) : Oblivious (Pure.pure a : Work α) := fun _ _ same => ⟨rfl, same⟩

theorem throw (e : Failure) : Oblivious (MonadExcept.throw e : Work α) :=
  fun _ _ same => ⟨rfl, same⟩

theorem bind (h : Oblivious steps) (h' : ∀ a, Oblivious (next a)) : Oblivious (steps >>= next) := by
  intro w v same
  cases first : steps w with
  | ok a w₁ =>
      obtain ⟨v₁, again, same₁⟩ := h.ok first same
      rw [bind_of_ok first, bind_of_ok again]
      exact h' a w₁ v₁ same₁
  | error e w₁ =>
      obtain ⟨outcome, files⟩ := h w v same
      rw [first] at outcome files
      cases again : steps v with
      | ok b v₁ =>
          rw [again] at outcome
          cases outcome
      | error e' v₁ =>
          rw [again] at outcome files
          cases outcome
          rw [bind_of_error first, bind_of_error again]
          exact ⟨rfl, files⟩

end Oblivious

/-! ## Steps -/

namespace Work

theorem oblivious_files (failure : IoFault → Failure) (calls : Calls α) :
    Oblivious (Work.files failure calls) := by
  intro w v same
  unfold files
  rw [same]
  cases calls w.files <;> exact ⟨rfl, rfl⟩

theorem oblivious_view (f : FileSystem → α) : Oblivious (Work.view f) := fun _ _ same =>
  ⟨congrArg (fun fs => Except.ok (f fs)) same, same⟩

theorem oblivious_logAll (level : Level) (messages : List String) :
    Oblivious (Work.logAll level messages) :=
  fun _ _ same => ⟨rfl, same⟩

theorem oblivious_log (level : Level) (message : String) : Oblivious (Work.log level message) :=
  oblivious_logAll level [message]

theorem oblivious_ofExcept (x : Except Failure α) : Oblivious (Work.ofExcept x) := by
  cases x with
  | ok a => exact .pure a
  | error e => exact .throw e

end Work

theorem oblivious_copyFile (source target : String) : Oblivious (copyFile source target) := by
  refine .bind (Work.oblivious_log _ _) fun _ => ?_
  have copying : Oblivious
      (Work.files (.copyFailed source target) (copy (Utf8.encode source) (Utf8.encode target))) :=
    Work.oblivious_files _ _
  split
  · exact .bind (Work.oblivious_files _ _) fun _ => copying
  · exact .bind (.pure ()) fun _ => copying

theorem oblivious_findMatches (root : String) (pattern : ArtifactPattern) :
    Oblivious (findMatches root pattern) := by
  refine .bind (Work.oblivious_ofExcept _) fun selector => .bind (Work.oblivious_view _) fun met =>
    .bind (Work.oblivious_logAll _ _) fun _ => ?_
  split
  · exact .throw _
  · exact .pure _

theorem oblivious_collect (sourceRoot : String) (pattern : ArtifactPattern) (targetRoot : String) :
    Oblivious (collect sourceRoot pattern targetRoot) := by
  refine .bind (oblivious_findMatches _ _) fun paths => .bind (Work.oblivious_log _ _) fun _ =>
    .bind ?_ fun _ => .pure _
  induction paths with
  | nil => exact .pure ()
  | cons path rest ih => exact .bind (oblivious_copyFile _ _) fun _ => ih

theorem oblivious_zipArchiver (staged archive : String) :
    Oblivious (zipArchiver.pack staged archive) := by
  have dirs : Oblivious (makeArchiveDirs archive) := by
    unfold makeArchiveDirs
    split
    · exact Work.oblivious_files _ _
    · exact .pure ()
  refine .bind dirs fun _ => .bind (Work.oblivious_files _ _) fun _ =>
    .bind (Work.oblivious_view _) fun _ =>
    .bind (Work.oblivious_view _) fun packed => .bind (Work.oblivious_files _ _) fun _ =>
      .bind (Work.oblivious_logAll _ _) fun _ => ?_
  split
  · exact .throw _
  · exact Work.oblivious_log _ _

theorem oblivious_finish (c : Config) : Oblivious (c.finish zipArchiver) :=
  .bind (oblivious_zipArchiver _ _) fun _ => .bind (Work.oblivious_files _ _) fun _ =>
    oblivious_collect _ _ _

end ClassPack
