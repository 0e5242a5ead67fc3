import ClassPack.Proofs.Confined
import ClassPack.Proofs.Telling

/-!
# Progress — what a run has told, asked and made when it stops

* `Halts.lines_mem`, `Halts.requests_length` and `Halts.given` — how many lines are told by the ends
  of a run, and when the archiver was asked;
* `run_stops_in_order` — the lines that a run has told say which step was the last one, why it
  failed, what was asked of the archiver and what has been made by then. Where the working
  directory's text steps up from what is missing, a file can come to be elsewhere: `run_strays`.
-/

namespace ClassPack

open FileSystem

variable {c : Config} {a : Archiver} {elapsed : Nat} {w : Workshop} {h : Halt} {q : Place}

/-! ## Ends -/

namespace Halts

theorem lines_mem (ends : Halts c a w h) : h.lines ∈ [0, 1, 2, 3, 4, 6] := by
  cases ends <;> simp

/-- The archiver is asked once, after the third line. -/
theorem requests_length (ends : Halts c a w h) :
    h.requests.length = if 3 ≤ h.lines then 1 else 0 := by
  cases ends <;> rfl

/-- A run that stops after the third line leaves what the archiver has left. -/
theorem given (ends : Halts c a w h) (third : h.lines = 3) :
    ∃ given : Workshop, h.requests = [c.requestOn given.files] ∧
      h.left = leftBy (a.pack c.layout.stagingDir c.layout.archivePath given) := by
  cases ends with
  | @packing _ _ e w₁ w' filled stopped => exact ⟨w₁, rfl, by rw [stopped, leftBy_error]⟩
  | _ => cases third

end Halts

/-- An archiver, as it is asked here, leaves the tree alone that it is to pack. -/
def Archiver.Spares (a : Archiver) (staged archive : String) (w : Workshop) : Prop :=
  ∀ st, w.files.LeadsTo (Utf8.encode staged) st →
    ∀ q, st <+: q → (leftBy (a.pack staged archive w)).files.at? q = w.files.at? q

/-- Before the jars are copied, files come to be in the workplace of the output directory only, and
where entries of the manifest go in the working directory. -/
theorem Halts.file_of_left {content : Content} (ends : Halts c a w h) (early : h.lines ≤ 4)
    (firm : (c.cleared w.files).Firm (Utf8.encode c.workingDir)) (keeps : 3 ≤ h.lines → a.KeepsTo)
    (file : h.left.files.at? q = some (.file content)) :
    w.files.at? q = some (.file content) ∨ c.Workplace w.files q ∨
      ∃ f ∈ c.auxFiles, f.placement = .workingDir ∧
        (c.cleared w.files).LeadsTo (Utf8.encode (joinText c.workingDir f.target)) q := by
  cases accepted : c.validate w.files with
  | error e =>
      obtain rfl := ends.eq_halt.trans (Halts.rejected (a := a) accepted).eq_halt.symm
      exact .inl file
  | ok _ =>
      rcases (halts_confined ends accepted firm keeps).at? q with same | adds
      · -- What was left of the old output directory was there before.
        have away := w.files.without_tookAway c.destination
        exact .inl (away.kept (same.symm.trans file))
      · cases adds with
        | inside _ _ there => exact .inr (.inl (there.resolve_left (by omega)))
        | sent listed placed leads _ => exact .inr (.inr ⟨_, listed, placed, leads⟩)
        | made _ _ _ new => simp [new] at file

/-! ## Runs -/

/-- A run takes its steps in order and stops at the first that fails. The lines that it has told by
then say which one that was: it told as many of the banner's lines as belong to the one way in which
it ends, fails for the reason given there, has asked the archiver once if it told three lines, and
leaves what the last step left. If that was the archiver and it has left the staged tree alone, the
tree is still there as it was given; and no file has come to be but in the staging directory, at the
archive and where the manifest has one in the working directory, as long as no jars are copied. -/
theorem run_stops_in_order (c : Config) (a : Archiver) (elapsed : Nat) (s : Session)
    (endless : s.out.room = none) :
    ∃ h, Halts c a s.workshop h ∧ (∀ h', Halts c a s.workshop h' → h' = h) ∧
      h.lines ∈ [0, 1, 2, 3, 4, 6] ∧
      let start := s.workshop.files
      let result := run c a elapsed s
      let final := leftBy result
      final.out.taken = s.out.taken ++
        (c.banner.take h.lines).flatMap (fun line => Utf8.encode (line ++ "\n")) ∧
      failureOf? result = h.failure ∧
      final.workshop.files = h.left.files ∧
      final.requests = s.requests ++ h.requests ∧
      h.requests.length = (if 3 ≤ h.lines then 1 else 0) ∧
      (h.lines = 3 → ∃ given : Workshop, h.requests = [c.requestOn given.files] ∧
        (a.Spares c.layout.stagingDir c.layout.archivePath given →
          ∀ st, given.files.LeadsTo c.staging st → ∀ q, st <+: q →
            final.workshop.files.at? q = given.files.at? q)) ∧
      (h.lines ≤ 4 → (c.cleared start).Firm (Utf8.encode c.workingDir) → (3 ≤ h.lines → a.KeepsTo) →
        ∀ q content, final.workshop.files.at? q = some (.file content) →
          start.at? q = some (.file content) ∨
            (∃ st, (c.cleared start).LeadsTo c.staging st ∧ st <+: q) ∨
            (c.cleared start).LeadsTo c.archive q ∨
              ∃ f ∈ c.auxFiles, f.placement = .workingDir ∧
                (c.cleared start).LeadsTo (Utf8.encode (joinText c.workingDir f.target)) q) := by
  have ends := halts_halt c a s.workshop
  obtain ⟨failure, out, requests, files⟩ := run_of_halts elapsed ends
  refine ⟨_, ends, fun h' ends' => ends'.eq_halt, ends.lines_mem, ?_, failure, files, requests,
    ends.requests_length, fun third => ?_, fun early firm keeps q content file => ?_⟩
  · rw [out]
    exact congrArg Sink.taken (Sink.foldl_writeLine_of_endless endless _)
  · obtain ⟨given, asked, left⟩ := ends.given third
    refine ⟨given, asked, fun spares st leads q below => ?_⟩
    rw [files, left]
    exact spares st leads q below
  · rw [files] at file
    rcases ends.file_of_left early firm keeps file with same | (staged | archive) | sent
    · exact .inl same
    · exact .inr (.inl staged)
    · exact .inr (.inr (.inl archive))
    · exact .inr (.inr (.inr sent))

/-- A run that has to copy a file which is not there, after the game's class file. -/
def lackingConfig : Config :=
  { sourceRoot := "/pz", workingDir := "/work", auxFiles := [⟨"b.lua", "b.lua", .workingDir⟩] }

theorem run_stops_in_order_lacking :
    (leftBy (run lackingConfig zipArchiver 0 (.opening besideGame))).out.taken =
        Utf8.encode "Start packaging b42.jar\nCopying *.class\n" ∧
      (leftBy (run lackingConfig zipArchiver 0 (.opening besideGame))).requests = [] ∧
      ∀ q content, (leavings lackingConfig besideGame).at? q = some (.file content) →
        besideGame.at? q = some (.file content) ∨
          Path.spelled (Utf8.encode "/work/lib/zombie_classes") <+: q ∨
          q = Path.spelled (Utf8.encode "/work/lib/b42.jar") ∨
          q = Path.spelled (Utf8.encode "/work/b.lua") := by
  have cleared : (lackingConfig.cleared besideGame).links = [] := by decide
  obtain ⟨h, ends, _, _, told, _, _, requests, asked, _, made⟩ :=
    run_stops_in_order lackingConfig zipArchiver 0 (.opening besideGame) rfl
  have second : h.lines = 2 := by
    rw [ends.eq_halt]
    decide +kernel
  refine ⟨?_, ?_, fun q content file => ?_⟩
  · rw [told, second]
    decide
  · rw [second] at asked
    rw [requests, List.eq_nil_of_length_eq_zero asked]
    rfl
  · rcases made (by omega) (.of_noUp (by decide))
        (fun third => absurd third (by omega)) q content file with
      same | ⟨st, leads, below⟩ | leads | ⟨f, listed, _, leads⟩
    · exact .inl same
    · exact .inr (.inl (place_of_leadsTo cleared (by decide) leads ▸ below))
    · exact .inr (.inr (.inl (place_of_leadsTo cleared (by decide) leads)))
    · obtain rfl : f = ⟨"b.lua", "b.lua", .workingDir⟩ := by simpa [lackingConfig] using listed
      exact .inr (.inr (.inr (place_of_leadsTo cleared (by decide) leads)))

/-- An old staging directory with a link in it, by which the working directory's text goes. -/
def windingGame : FileSystem :=
  (((((((((besideGame.plant "/v" .directory).plant "/v/d" .directory).plant
    "/work/lib" .directory).plant "/work/lib/zc" .directory).plant
    "/work/lib/zc/k" (linkTo "../../../v/d")).plant "/work/lib/work" .directory).plant
    "/work/lib/work/lib" .directory).plant "/work/lib/work/lib/zc" .directory).plant
    "/work/lib/work/lib/zc/a.class" (linkTo "../other"))

/-- The working directory's text steps up from a place that is not there, so that it leads elsewhere
once the old staging directory is gone. -/
def windingConfig : Config :=
  { sourceRoot := "/pz", workingDir := "/work/lib/zc/k/../../work/x/..", stagingDirName := "zc",
    auxFiles := [⟨"b.lua", "b.lua", .staged⟩] }

/-- A run that stops before the archiver is asked can put a file into the output directory that
is neither the archive nor in the staging directory, without an entry of the manifest for the
working directory. -/
theorem run_strays :
    windingConfig.validate windingGame = .ok () ∧
      (windingConfig.halt zipArchiver { files := windingGame }).lines = 2 ∧
      (leavings windingConfig windingGame).canonical? windingConfig.layout.destinationRoot =
        some "/work/lib/work/lib" ∧
      (leavings windingConfig windingGame).canonical? windingConfig.layout.stagingDir =
        some "/work/lib/work/lib/zc" ∧
      (leavings windingConfig windingGame).canonical? windingConfig.layout.archivePath = none ∧
      windingGame.canonical? "/work/lib/work/lib/other" = none ∧
      (leavings windingConfig windingGame).holds "/work/lib/work/lib/other" "class" = true := by
  decide +kernel

end ClassPack
