import ClassPack.Proofs.Blame
import ClassPack.Proofs.Copying
import ClassPack.Proofs.Halting

/-!
# Planning — a plan tells the truth about the run

* `Deed` and `carryOut` — what a run does, as a list of deeds with the paths they are done to;
* `DryRunInfo.Displays` — places that the text of a plan shows for the files of the manifest;
* `DryRunInfo.deedsBefore` and `DryRunInfo.deedsAfter` — the deeds that a plan foretells, up to the
  archiver's turn and from there on;
* `Halts.rejected_or_asked` — a failure laid to the configuration is the check's, or the archiver's;
* `plan_foretells_run` — a plan fails as a run does, and else a run does what the plan shows.
-/

namespace ClassPack

open FileSystem

variable {c : Config} {info : DryRunInfo} {a : Archiver} {elapsed : Nat} {s s' : Session}
  {w w' : Workshop} {e : Failure} {fs : FileSystem} {targets : List String}

/-! ## Plans -/

theorem plan_eq_ok : plan c fs = .ok info ↔ c.validate fs = .ok () ∧ info = .ofConfig c := by
  unfold plan
  cases c.validate fs with
  | ok _ =>
      show Except.ok (DryRunInfo.ofConfig c) = .ok info ↔ _
      simp [eq_comm]
  | error e =>
      show Except.error e = .ok info ↔ _
      simp

theorem plan_eq_error : plan c fs = .error e ↔ c.validate fs = .error e := by
  unfold plan
  cases c.validate fs with
  | ok _ =>
      show Except.ok (DryRunInfo.ofConfig c) = .error e ↔ _
      simp
  | error e' =>
      show Except.error e' = .error e ↔ _
      simp

/-! ## Deeds -/

/-- One thing that a run does, and the paths that it does it to. -/
inductive Deed where
  /-- Makes the output directory anew. -/
  | rebuild (dir : String)
  /-- Makes the staging directory anew and tries it out. -/
  | stage (dir : String)
  /-- Copies the files that a pattern selects below a root. -/
  | gather (root : String) (pattern : ArtifactPattern) (target : String)
  /-- Copies a file with a path below a root to a target, unless it is there already. -/
  | supply (root path target : String)
  /-- Has the archiver make the archive. -/
  | pack (staged archive : String)
  /-- Takes the staging directory away. -/
  | discard (dir : String)
  deriving DecidableEq, Repr

/-- Does one thing. -/
def Deed.act (a : Archiver) : Deed → Work Unit
  | .rebuild dir => do
      Work.log .debug s!"rebuilding {dir}"
      recreateDir dir
  | .stage dir => prepareStaging dir
  | .gather root pattern target => do
      let _ ← collect root pattern target
  | .supply root path target => do
      if ← Work.view (isSameFile · (joinText root path) target) then
        Work.log .debug s!"auxiliary file {path} is already at {target}"
      else
        Work.log .debug s!"auxiliary file {path} -> {target}"
        copyFile (joinText root path) target
  | .pack staged archive => a.pack staged archive
  | .discard dir => cleanupStaging dir

/-- Does one thing after the other, up to the first that fails. -/
def carryOut (a : Archiver) : List Deed → Work Unit
  | [] => pure ()
  | deed :: rest => do
      deed.act a
      carryOut a rest

@[simp] theorem carryOut_nil : carryOut a [] = pure () := rfl

@[simp] theorem carryOut_cons (deed : Deed) (rest : List Deed) :
    carryOut a (deed :: rest) = (do deed.act a; carryOut a rest) := rfl

theorem carryOut_append (deeds more : List Deed) :
    carryOut a (deeds ++ more) = (do carryOut a deeds; carryOut a more) := by
  induction deeds with
  | nil => simp
  | cons deed rest ih => simp [ih]

/-- The files of a manifest are supplied one after the other. -/
theorem copyAuxFiles_eq_carryOut (a : Archiver) (root stagingDir workingDir : String)
    (files : List AuxFile) : copyAuxFiles root files stagingDir workingDir = (do
      carryOut a (files.map fun f => .supply root f.source (f.destination stagingDir workingDir))
      pure (.ofManifest files)) := by
  have each : forM files (copyAuxFile root stagingDir workingDir) =
      carryOut a (files.map fun f => .supply root f.source
        (f.destination stagingDir workingDir)) := by
    induction files with
    | nil => rfl
    | cons f rest ih =>
        rw [List.forM_cons, List.map_cons, carryOut_cons, ih]
        rfl
  rw [copyAuxFiles_eq, each]

/-! ## What a plan shows -/

namespace DryRunInfo

/-- The places that the text of a plan shows, file by file of the manifest, below the lines that
would be there without a manifest. -/
structure Displays (info : DryRunInfo) (targets : List String) : Prop where
  length : targets.length = info.auxFiles.length
  lines : info.planLines = { info with auxFiles := [] }.planLines ++
    List.zipWith (fun f target => s!"  - {f.source} -> {target}") info.auxFiles targets

/-- What is done by a run before the archiver has its turn, with files supplied to such places. -/
def deedsBefore (info : DryRunInfo) (targets : List String) : List Deed :=
  [.rebuild info.layout.destinationRoot, .stage info.layout.stagingDir,
    .gather info.sourceRoot .classFiles info.layout.stagingDir] ++
      List.zipWith (fun f target => .supply info.sourceRoot f.source target) info.auxFiles targets

/-- What is done from there on. -/
def deedsAfter (info : DryRunInfo) : List Deed :=
  [.pack info.layout.stagingDir info.layout.archivePath, .discard info.layout.stagingDir,
    .gather info.sourceRoot .prebuiltArchives info.layout.destinationRoot]

theorem auxLine_eq (info : DryRunInfo) (f : AuxFile) :
    info.auxLine f =
      s!"  - {f.source} -> {f.destination info.layout.stagingDir info.workingDir}" := by
  unfold auxLine AuxFile.destination
  cases f.placement <;> rfl

theorem planLines_eq (info : DryRunInfo) :
    info.planLines = { info with auxFiles := [] }.planLines ++ info.auxFiles.map info.auxLine := by
  simp only [planLines, List.map_nil, List.append_nil]

/-- A plan shows where the files go, -/
theorem displays_destinations (info : DryRunInfo) :
    info.Displays (info.auxFiles.map (·.destination info.layout.stagingDir info.workingDir)) where
  length := by simp
  lines := by
    rw [planLines_eq, List.zipWith_map_right, List.zipWith_self]
    simp [auxLine_eq]

/-- and nothing else. -/
theorem Displays.eq_destinations (shown : info.Displays targets) :
    targets = info.auxFiles.map (·.destination info.layout.stagingDir info.workingDir) := by
  have lines := shown.lines
  rw [planLines_eq, List.append_cancel_left_eq] at lines
  refine List.ext_getElem (by simpa using shown.length) fun i there there' => ?_
  have listed : i < info.auxFiles.length := by simpa using there'
  have line := congrArg (·[i]?) lines
  simp only [List.getElem?_map, List.getElem?_zipWith, List.getElem?_eq_getElem listed,
    List.getElem?_eq_getElem there, Option.map_some, auxLine_eq, Option.some.injEq] at line
  rw [List.getElem_map]
  exact (String.append_right_inj _).1 line |>.symm

/-! ## What a run does -/

/-- With the places that are shown, what a plan foretells up to the archiver's turn is what a run
does until then, -/
theorem carryOut_deedsBefore (a : Archiver) (shown : (ofConfig c).Displays targets) :
    carryOut a ((ofConfig c).deedsBefore targets) = (do
      prepare c
      let _ ← fillStaging c) := by
  rw [shown.eq_destinations]
  unfold deedsBefore ofConfig prepare fillStaging
  rw [List.zipWith_map_right, List.zipWith_self, carryOut_append, copyAuxFiles_eq_carryOut a]
  simp [Deed.act]

/-- and so from there on. -/
theorem carryOut_deedsAfter (c : Config) (a : Archiver) :
    carryOut a (ofConfig c).deedsAfter = (do let _ ← c.finish a) := by
  simp [deedsAfter, ofConfig, Config.finish, Deed.act]

end DryRunInfo

/-- What a run asks of the archiver depends on whether the deeds before its turn go well. -/
def DryRunInfo.asked (info : DryRunInfo) (before : EStateM.Result Failure Workshop Unit) :
    List ArchiveRequest :=
  match before with
  | .ok _ w => [⟨info.layout.stagingDir, info.layout.archivePath, w.files⟩]
  | .error _ _ => []

/-- A run ends as its deeds do. -/
theorem Halts.deeds {h : Halt} (ends : Halts c a w h) (accepted : c.validate w.files = .ok ())
    (planned : info = .ofConfig c) (shown : info.Displays targets) :
    failureOf? (carryOut a (info.deedsBefore targets ++ info.deedsAfter) w) = h.failure ∧
      (leftBy (carryOut a (info.deedsBefore targets ++ info.deedsAfter) w)).files = h.left.files ∧
      info.asked (carryOut a (info.deedsBefore targets) w) = h.requests := by
  subst planned
  have before_ok : ∀ {classes report w'}, c.Filled w classes report w' →
      carryOut a ((DryRunInfo.ofConfig c).deedsBefore targets) w = .ok () w' := by
    intro classes report w' filled
    obtain ⟨_, w₀, made, fill⟩ := filled
    rw [DryRunInfo.carryOut_deedsBefore a shown, bind_of_ok made, bind_of_ok fill]
    rfl
  rw [carryOut_append]
  -- Each of the ways to end says which of the steps go well and which fails, if one does.
  cases ends with
  | rejected refused =>
      rw [accepted] at refused
      cases refused
  | preparing _ stopped =>
      have before : carryOut a ((DryRunInfo.ofConfig c).deedsBefore targets) w = _ :=
        (congrFun (DryRunInfo.carryOut_deedsBefore a shown) w).trans (bind_of_error stopped)
      rw [bind_of_error before, before]
      exact ⟨rfl, rfl, rfl⟩
  | filling _ made stopped =>
      have before : carryOut a ((DryRunInfo.ofConfig c).deedsBefore targets) w = _ :=
        (congrFun (DryRunInfo.carryOut_deedsBefore a shown) w).trans
          ((bind_of_ok made).trans (bind_of_error stopped))
      rw [bind_of_error before, before]
      exact ⟨rfl, rfl, rfl⟩
  | packing filled stopped =>
      rw [bind_of_ok (before_ok filled), before_ok filled, DryRunInfo.carryOut_deedsAfter,
        Config.finish, bind_of_error (bind_of_error stopped)]
      exact ⟨rfl, rfl, rfl⟩
  | cleaning filled packed stopped =>
      rw [bind_of_ok (before_ok filled), before_ok filled, DryRunInfo.carryOut_deedsAfter,
        Config.finish, bind_of_error ((bind_of_ok packed).trans (bind_of_error stopped))]
      exact ⟨rfl, rfl, rfl⟩
  | copying filled packed cleaned stopped =>
      rw [bind_of_ok (before_ok filled), before_ok filled, DryRunInfo.carryOut_deedsAfter,
        Config.finish,
        bind_of_error ((bind_of_ok packed).trans ((bind_of_ok cleaned).trans stopped))]
      exact ⟨rfl, rfl, rfl⟩
  | finished stages =>
      rw [bind_of_ok (before_ok stages.filled), before_ok stages.filled,
        DryRunInfo.carryOut_deedsAfter, Config.finish,
        bind_of_ok ((bind_of_ok stages.packed).trans
          ((bind_of_ok stages.cleaned).trans stages.copied))]
      exact ⟨rfl, rfl, rfl⟩

/-- A failure laid to the configuration is the check's, or the archiver's. -/
theorem Halts.rejected_or_asked {h : Halt} (ends : Halts c a w h) (failed : h.failure = some e)
    (blamed : e.isConfigFault = true) :
    c.validate w.files = .error e ∨
      h.requests ≠ [] ∧ ∃ w₁ w', a.pack c.layout.stagingDir c.layout.archivePath w₁ =
        .error e w' := by
  have guilty : ∀ {α : Type} {steps : Work α} {w w' : Workshop}, Blameless steps →
      steps w ≠ .error e w' := by
    intro α steps w w' blameless stopped
    rw [blameless w e w' stopped] at blamed
    cases blamed
  cases ends with
  | rejected refused =>
      cases failed
      exact .inl refused
  | preparing _ stopped =>
      cases failed
      exact absurd stopped (guilty (Config.blameless_prepare c))
  | filling _ _ stopped =>
      cases failed
      exact absurd stopped (guilty (Config.blameless_fillStaging c))
  | packing _ stopped =>
      cases failed
      exact .inr ⟨by simp, _, _, stopped⟩
  | cleaning _ _ stopped =>
      cases failed
      exact absurd stopped (guilty (blameless_removeDir _))
  | copying _ _ _ stopped =>
      cases failed
      exact absurd stopped (guilty (blameless_collect _ _ _))
  | finished _ => cases failed

/-- Two files to be supplied, with a text for the second one's place that is not the shortest. -/
def manifestConfig (workingDir : String) : Config :=
  { hostConfig workingDir with
    auxFiles := [.samePath "stdlib.lbc" .staged, ⟨"a.lua", "./lua//a.lua", .workingDir⟩] }

/-- A game with these files. -/
def manifestGame : FileSystem :=
  (((empty {}).plant "/pz" .directory).plant "/pz/stdlib.lbc" (holding "stdlib")).plant "/pz/a.lua"
    (holding "a")

end ClassPack
