import ClassPack.Proofs.Blame
import ClassPack.Proofs.StagedTree

/-!
# StaleOutput — what an earlier run left below the output directory is not seen

* `FileSystem.Holds fs text d` — the directory `d` stands under a text, and no link to it; taking it
  away comes to the same wherever the same is left when it has been emptied
  (`removeTreeIfThere_congr`);
* `Config.Aside c d fs gs` — two file systems differ only below the output directory `d`, and
  neither the working directory's text nor the source root's is read by way of anything below it;
* `stale_output_unseen` — what comes of a run on the one comes of a run on the other.
-/

namespace ClassPack

open FileSystem

variable {c : Config} {a : Archiver} {d q : Place} {fs gs : FileSystem} {text : Path}

namespace FileSystem

/-! ## Taking away a directory -/

/-- Whether a directory stands under a text, and no link to one. -/
def isDirItself (fs : FileSystem) (text : Path) : Bool :=
  match fs.lstat text with
  | .ok .directory => true
  | _ => false

theorem isDirItself_iff : fs.isDirItself text = true ↔ fs.lstat text = .ok .directory := by
  unfold isDirItself
  split <;> simp_all

/-- A directory stands under a text, and the text's last step is no link. -/
structure Holds (fs : FileSystem) (text : Path) (d : Place) : Prop where
  arrives : fs.Arrives text d
  directory : fs.at? d = some .directory
  itself : fs.isDirItself text = true

/-- What comes of taking a directory away is told by what is left when it has been emptied. -/
theorem removeTree_congr (h : fs.Holds text d) (h' : gs.Holds text d)
    (same : gs.clear d = fs.clear d) : removeTree text gs = removeTree text fs := by
  obtain ⟨links, way⟩ := h.arrives
  obtain ⟨links', way'⟩ := h'.arrives
  unfold removeTree
  simp only [isDirItself_iff.1 h.itself, isDirItself_iff.1 h'.itself,
    lookup_eq_ok_iff.2 ⟨way, h.directory⟩, lookup_eq_ok_iff.2 ⟨way', h'.directory⟩,
    same]

theorem removeTreeIfThere_congr (h : fs.Holds text d) (h' : gs.Holds text d)
    (same : gs.clear d = fs.clear d) : removeTreeIfThere text gs = removeTreeIfThere text fs := by
  unfold removeTreeIfThere
  rw [removeTree_congr h h' same]

end FileSystem

/-! ## Runs -/

namespace Session

/-- The same session on other files. -/
def on (s : Session) (files : FileSystem) : Session :=
  { s with workshop := { s.workshop with files } }

theorem opening_on (fs files : FileSystem) : (Session.opening fs).on files = .opening files := rfl

end Session

/-- Two file systems differ below the output directory only, which is a directory in both, and
neither the working directory's text nor the source root's is read by way of anything below it. -/
structure Config.Aside (c : Config) (d : Place) (fs gs : FileSystem) : Prop where
  workingDir : gs.workingDir = fs.workingDir
  limits : gs.limits = fs.limits
  same : ∀ q, ¬ (q ≠ d ∧ d <+: q) → gs.at? q = fs.at? q
  held : fs.Holds c.destination d
  held' : gs.Holds c.destination d
  beside : ∀ text ∈ [c.workingDir, c.sourceRoot], ∀ q, fs.Looks (Utf8.encode text) q →
    ¬ (q ≠ d ∧ d <+: q)

namespace Config.Aside

variable (h : c.Aside d fs gs)

include h

theorem clear_eq : gs.clear d = fs.clear d := by
  refine ext_at? (fun q => ?_) (by simp [h.workingDir]) (by simp [h.limits])
  rw [at?_clear, at?_clear]
  split
  · rfl
  · rename_i outside
    exact h.same q outside

theorem validate_eq : c.validate gs = c.validate fs := by
  have looks : ∀ text ∈ [c.workingDir, c.sourceRoot], ∀ q, fs.Looks (Utf8.encode text) q →
      gs.at? q = fs.at? q :=
    fun text there q seen => h.same q (h.beside text there q seen)
  have root := looks c.sourceRoot (by simp)
  have isDir := isDir_of_looks h.workingDir h.limits root
  have source := canonical?_of_looks h.workingDir h.limits root
  have working := canonical?_of_looks h.workingDir h.limits (looks c.workingDir (by simp))
  unfold Config.validate Config.resolved
  rw [isDir, source, working]

theorem removeDir_eq (w : Workshop) :
    removeDir c.layout.destinationRoot { w with files := gs } =
      removeDir c.layout.destinationRoot { w with files := fs } := by
  have taken : removeTreeIfThere (Utf8.encode c.layout.destinationRoot) gs =
      removeTreeIfThere (Utf8.encode c.layout.destinationRoot) fs :=
    removeTreeIfThere_congr h.held h.held' h.clear_eq
  unfold removeDir Work.files
  simp only [taken]

/-- Once the old output directory is gone nothing tells the two apart. -/
theorem prepare_eq (w : Workshop) :
    prepare c { w with files := gs } = prepare c { w with files := fs } := by
  have emptied (w : Workshop) : recreateDir c.layout.destinationRoot { w with files := gs } =
      recreateDir c.layout.destinationRoot { w with files := fs } := by
    unfold recreateDir
    exact bind_congr_state (h.removeDir_eq w)
  let logged : Workshop :=
    { w with log := w.log ++ [⟨.debug, s!"rebuilding {c.layout.destinationRoot}"⟩] }
  have log (files : FileSystem) :
      Work.log .debug s!"rebuilding {c.layout.destinationRoot}" { w with files } =
        .ok () { logged with files } := rfl
  unfold prepare
  rw [bind_of_ok (log gs), bind_of_ok (log fs)]
  exact bind_congr_state (emptied logged)

theorem run_eq_of_accepted (s : Session) (elapsed : Nat) (accepted : c.validate fs = .ok ()) :
    run c a elapsed (s.on gs) = run c a elapsed (s.on fs) := by
  have checked (files : FileSystem) (there : c.validate files = .ok ()) :
      checkConfig c (s.on files) = .ok () (s.on files) := by
    simp [checkConfig, Session.on, there]
  have prepared (s : Session) : Run.work (prepare c) (s.on gs) =
      Run.work (prepare c) (s.on fs) := by
    unfold Run.work
    simp only [Session.on, h.prepare_eq s.workshop]
  let said : Session := { s with out := s.out.writeLine s!"Start packaging {c.layout.archiveName}" }
  have say (files : FileSystem) : Run.say s!"Start packaging {c.layout.archiveName}" (s.on files) =
      .ok () (said.on files) := rfl
  rw [run_eq, bind_of_ok (checked gs (h.validate_eq.trans accepted)),
    bind_of_ok (checked fs accepted), bind_of_ok (say gs), bind_of_ok (say fs)]
  exact bind_congr_state (prepared said)

end Config.Aside

/-- What an earlier run left below the output directory makes no difference. Either a
configuration is rejected with the same words, and nothing is written or changed; or it is
accepted, and all that comes of the run is the same: the summary but for the time, or the failure,
and the progress lines, the log and the files. What was left has no permissions here, so none of
it resists being removed. -/
theorem stale_output_unseen (h : c.Aside d fs gs) (s : Session) (elapsed elapsed' : Nat) :
    (∃ e, run c a elapsed (s.on fs) = .error e (s.on fs) ∧
      run c a elapsed' (s.on gs) = .error e (s.on gs)) ∨
      (c.validate fs = .ok () ∧ c.validate gs = .ok () ∧
        run c a elapsed' (s.on gs) =
          match run c a elapsed (s.on fs) with
          | .ok summary s' => .ok (summary.timed elapsed') s'
          | .error e s' => .error e s') := by
  cases accepted : c.validate fs with
  | error e =>
      exact .inl ⟨e, run_of_rejected accepted, run_of_rejected (h.validate_eq.trans accepted)⟩
  | ok _ =>
      refine .inr ⟨rfl, h.validate_eq.trans accepted, ?_⟩
      rw [h.run_eq_of_accepted s elapsed' accepted]
      exact run_elapsed c a elapsed elapsed' (s.on fs)

/-- A game, and an output directory that is there already. -/
def servedGame : FileSystem := (stockedGame.plant "/work" .directory).plant "/work/lib" .directory

/-- What a run left that was broken off. -/
def leftoverGame : FileSystem :=
  (servedGame.plant "/work/lib/zombie_classes" .directory).plant
    "/work/lib/zombie_classes/old.class" (holding "stale")

/-- What has nothing to do with a run, a link that leads nowhere. -/
def lostGame : FileSystem := servedGame.plant "/work/lib/lost" (linkTo "nowhere")

theorem lostGame_aside :
    stockedConfig.Aside (Path.spelled (Utf8.encode "/work/lib")) leftoverGame lostGame := by
  have linkless : leftoverGame.links = [] := by decide
  refine ⟨by decide, by simp [lostGame, leftoverGame], fun q beside => ?_,
    ⟨⟨40, by decide⟩, ?_, ?_⟩,
    ⟨⟨40, by decide⟩, ?_, ?_⟩, fun text there q looks below => ?_⟩
  · -- All that was planted last lies below the output directory.
    have other {text : String} (inner : Path.spelled (Utf8.encode text) ≠
        Path.spelled (Utf8.encode "/work/lib") ∧
        Path.spelled (Utf8.encode "/work/lib") <+: Path.spelled (Utf8.encode text)) :
        q ≠ Path.spelled (Utf8.encode text) := fun here => beside (here ▸ inner)
    calc lostGame.at? q = servedGame.at? q := at?_plant_of_ne (other (by decide)) _ _
      _ = (servedGame.plant "/work/lib/zombie_classes" .directory).at? q :=
          (at?_plant_of_ne (other (by decide)) _ _).symm
      _ = leftoverGame.at? q := (at?_plant_of_ne (other (by decide)) _ _).symm
  · exact isDirectoryAt_iff.1 (by decide)
  · decide
  · exact isDirectoryAt_iff.1 (by decide)
  · decide
  · -- Without links, only what lies above the two is looked at.
    have seen : ∀ text ∈ [stockedConfig.workingDir, stockedConfig.sourceRoot],
        Path.isAbsolute (Utf8.encode text) = true ∧ Segment.up ∉ Path.steps (Utf8.encode text) ∧
          ¬ Path.spelled (Utf8.encode "/work/lib") <+:
            (Path.steps (Utf8.encode text)).foldl Segment.take [] := by
      decide
    obtain ⟨absolute, noUp, outside⟩ := seen text there
    exact outside (below.2.trans (prefix_of_looks linkless absolute noUp looks))

theorem stale_output_unseen_leftover :
    ∃ summary s', run stockedConfig zipArchiver 5 (.opening leftoverGame) = .ok summary s' ∧
      run stockedConfig zipArchiver 7 (.opening lostGame) = .ok (summary.timed 7) s' := by
  have done : (resultOf? (run stockedConfig zipArchiver 5 (.opening leftoverGame))).isSome =
      true := by
    decide +kernel
  obtain ⟨summary, value⟩ := Option.isSome_iff_exists.1 done
  obtain ⟨s', ended⟩ := resultOf?_eq_some value
  rcases stale_output_unseen (a := zipArchiver) lostGame_aside (.opening servedGame) 5 7 with
    ⟨e, failed, _⟩ | ⟨_, _, same⟩
  · cases ended.symm.trans failed
  · rw [Session.opening_on, Session.opening_on, ended] at same
    exact ⟨summary, s', ended, same⟩

end ClassPack
