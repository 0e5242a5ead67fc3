import ClassPack.Proofs.Completing
import ClassPack.Proofs.Halting
import ClassPack.Proofs.Oblivious
import ClassPack.Proofs.Rechecking
import ClassPack.Proofs.Recopying
import ClassPack.Proofs.Remaking
import ClassPack.Proofs.SourceRoot

/-!
# Rerunning — a run over what a run has left

A run that has gone well is run again on the files that it left.

* `Prepared.fill_again` — the staging directory is filled again as it was, if the second filling
  finds what the first one found wherever the source reaches (`Retraces`);
* `Prepared.retraces` — so it is, if no file for the working directory was put where the
  source reaches;
* `second_run_changes_nothing` — the whole run: checked, prepared, filled and finished again, it
  comes to the same and leaves the same files. `second_run_differs` has a run for each hypothesis
  that does without it.
-/

namespace ClassPack

open FileSystem

variable {c : Config} {elapsed : Nat} {s s' : Session} {summary : Summary}
  {start mid fs gs hs : FileSystem} {d q st : Place} {w w' v : Workshop}
  {classes jars : List String} {report : AuxReport}

/-! ## The filling -/

/-- Where a file of a manifest was copied to, or is already, its text leads. -/
theorem leads_of_copyAuxFiles {sourceRoot stagingDir workingDir : String} {files : List AuxFile}
    {f : AuxFile} (copied : forM files (copyAuxFile sourceRoot stagingDir workingDir) w = .ok () w')
    (there : f ∈ files) (starts : ∀ f ∈ files,
      w.files.Starts (Utf8.encode (joinText sourceRoot f.source)))
    (steady : ∀ f ∈ files, w.files.Steady (Utf8.encode (f.destination stagingDir workingDir))) :
    ∃ t, w.files.LeadsTo (Utf8.encode (f.destination stagingDir workingDir)) t := by
  induction files generalizing w with
  | nil => cases there
  | cons g rest ih =>
      obtain ⟨start, starts⟩ := List.forall_mem_cons.1 starts
      obtain ⟨firm, steady⟩ := List.forall_mem_cons.1 steady
      rw [List.forM_cons] at copied
      obtain ⟨_, w₁, first, later⟩ := bind_eq_ok.1 copied
      have grown : w.files.Grows w₁.files := by
        simpa [first] using (copyAuxFile_fills sourceRoot stagingDir workingDir g w firm).toGrows
      rcases List.mem_cons.1 there with rfl | more
      · rcases copyAuxFile_ok first start firm with ⟨same, _⟩ | ⟨e, _, target, made⟩
        · obtain ⟨p, _, leads, _⟩ := arrives_of_isSameFile same
          exact ⟨p, leads⟩
        · exact ⟨e.place, grown.leadsTo_iff.1 (target ▸ made.target.leads)⟩
      · obtain ⟨t, leads⟩ :=
          ih later more (fun f member => (starts f member).of_within grown.toWithin)
          fun f member => (steady f member).of_within grown.toWithin
        exact ⟨t, grown.leadsTo_iff.1 leads⟩

namespace Config.Prepared

/-- The staging directory is filled again. -/
theorem fill_again (h : c.Prepared start mid w.files d st)
    (fill : fillStaging c w = .ok (classes, report) w')
    (retraces : Retraces (c.Reaches (c.cleared start)) w'.files w.files v.files) :
    ∃ v', fillStaging c v = .ok (classes, report) v' ∧ v'.files = w'.files := by
  obtain ⟨w₁, collected, copied, rfl⟩ := fillStaging_ok fill
  have bare := h.bare_grows h.grows
  have starts : w.files.Starts (Utf8.encode c.sourceRoot) :=
    h.anchored.sourceRoot.of_within bare.toWithin
  have steady : w.files.Steady (Utf8.encode c.layout.stagingDir) :=
    (h.steady h.grows).joinText h.sound.stagingDir
  obtain ⟨⟨_, search⟩, _, copies, _⟩ := collect_ok collected starts steady
  have grown := h.grows.trans copies.grows
  have startsAll := fun f there => h.starts_source (f := f) grown there
  have steadyAll := fun f there => h.steady_destination (f := f) grown there
  have rest : w₁.files.Grows w'.files := by
    simpa [copied] using (copyAuxFiles_fills c.auxFiles w₁ startsAll steadyAll).toGrows
  -- First the class files, then those of the manifest.
  obtain ⟨_, search'⟩ := h.findMatches_of_grows h.grows retraces.left.toWithin retraces.same search
  obtain ⟨v₁, collected', retraces₁⟩ := collect_again retraces collected rest starts steady
    (fun path descends o leads => .of_joinText descends (bare.leadsTo_iff.1 leads)) search'
  obtain ⟨v', copied', final⟩ := copyAuxFiles_again retraces₁ copied (.refl _) startsAll steadyAll
    fun f there o leads =>
      .of_joinText (h.sound.source f there) ((h.bare_grows grown).leadsTo_iff.1 leads)
  exact ⟨v', bind_eq_ok.2 ⟨classes, v₁, collected',
    bind_eq_ok.2 ⟨_, v', copyAuxFiles_eq_ok.2 ⟨copied', rfl⟩, rfl⟩⟩,
    final.eq⟩

variable (h : c.Prepared start mid fs d st)

include h

/-- With both directories made anew, all is in between the first time they were and the first time
they were filled. -/
theorem retraces (beyond : ∀ t, c.Delivers start t → ¬ c.Reaches (c.cleared start) t)
    (filled : Fills (fun t => st <+: t ∨ c.Delivers start t) fs hs) {left : FileSystem}
    (grown : mid.Grows left) (finished : ∀ q, left.at? q = hs.at? q ∨ d <+: q)
    (again : Raised st (left.clear d) gs) : Retraces (c.Reaches (c.cleared start)) hs fs gs := by
  -- Only outside the output directory is there anything that was not there the first time.
  have view : ∀ q, gs.at? q = fs.at? q ∨ ¬ q <+: st ∧ ¬ d <+: q ∧ gs.at? q = hs.at? q := fun q => by
    rw [again.at?, h.inner.raised.at?, at?_clear]
    by_cases above : q <+: st
    · simp [above]
    · by_cases below : d <+: q
      · obtain ⟨r, rfl⟩ := below
        cases r with
        | nil => exact absurd (by simpa using h.below) above
        | cons n r => simp [above, h.outer.at?_below n r]
      · exact .inr ⟨above, below, by simpa [above, below] using (finished q).resolve_right below⟩
  refine ⟨⟨filled.toGrows, ?_, ?_, fun q => (view q).imp_right fun out => out.2.2⟩, fun q reach =>
    ?_⟩
  · rw [again.workingDir, clear_workingDir, grown.workingDir, h.inner.raised.workingDir]
  · rw [again.limits, clear_limits, grown.limits, h.inner.raised.limits]
  · rcases view q with same | ⟨notAbove, notBelow, same⟩
    · exact same
    -- What was filled out there is out of reach.
    rw [same]
    have aside : ∀ t, st <+: t ∨ c.Delivers start t → q <+: t → False := by
      rintro t (inner | delivered) above
      · rcases List.prefix_or_prefix_of_prefix above (h.below.trans inner) with higher | deeper
        · exact notAbove (higher.trans h.below)
        · exact notBelow deeper
      · exact beyond t delivered (reach.of_prefix above)
    rcases filled.at? q with kept | ⟨_, _, t, deposit, above⟩ | ⟨_, deposit⟩
    · exact kept
    · exact (aside t deposit above).elim
    · exact (aside q deposit (List.prefix_refl _)).elim

end Config.Prepared

/-! ## The whole run -/

/-- All that a run does after the filling keeps what was there when the output directory was
made. -/
theorem Config.Prepared.grows_of_finish {a : Archiver} (h : c.Prepared start mid fs d st)
    (keeps : a.KeepsTo) (grown : mid.Grows w.files) (done : c.finish a w = .ok jars w') :
    mid.Grows w'.files := by
  unfold Config.finish at done
  obtain ⟨_, w₁, packed, done⟩ := bind_eq_ok.1 done
  obtain ⟨_, w₂, cleaned, copied⟩ := bind_eq_ok.1 done
  have grown₁ := (h.pack_phase keeps grown).1
  rw [packed, leftBy_ok] at grown₁
  have grown₂ := (h.cleanup_phase grown₁).1
  rw [cleaned, leftBy_ok] at grown₂
  have last := (h.jars_phase grown₂).toGrows
  rw [copied, leftBy_ok] at last
  exact grown₂.trans last

/-- A file that was put into the working directory can be reached there from then on. -/
theorem Config.Prepared.delivered (h : c.Prepared start mid w.files d st)
    (fill : fillStaging c w = .ok (classes, report) w') {f : AuxFile} (there : f ∈ c.auxFiles)
    (placed : f.placement = .workingDir) :
    ∃ t, mid.LeadsTo (Utf8.encode (joinText c.workingDir f.target)) t := by
  obtain ⟨w₁, collected, copied, _⟩ := fillStaging_ok fill
  obtain ⟨_, _, copies, _⟩ :=
    collect_ok collected (h.anchored.sourceRoot.of_within (h.bare_grows h.grows).toWithin)
    ((h.steady h.grows).joinText h.sound.stagingDir)
  have grown := h.grows.trans copies.grows
  obtain ⟨t, leads⟩ :=
    leads_of_copyAuxFiles copied there (fun f there => h.starts_source grown there)
    fun f there => h.steady_destination grown there
  rw [AuxFile.destination, placed] at leads
  exact ⟨t, grown.leadsTo_iff.1 leads⟩

/-- A run of the usual manifest that has gone well goes well again, with the same lines and the same
summary but for the time it took, and changes nothing: if, once the old output directory is gone,
the texts can still be read and the configuration is still accepted, and if no file is delivered to
where the source reaches. Permissions are no part of the file systems here: no call of either run is
refused for want of one, and none is compared. -/
theorem second_run_changes_nothing {t : Session} (manifest : c.auxFiles = defaultManifest)
    (anchored : c.Anchored s.workshop.files)
    (accepted : c.validate (c.cleared s.workshop.files) = .ok ())
    (beyond : ∀ q, c.Delivers s.workshop.files q → ¬ c.Reaches (c.cleared s.workshop.files) q)
    (first : run c zipArchiver elapsed s = .ok summary s')
    (left : t.workshop.files = s'.workshop.files) (elapsed' : Nat) :
    ∃ t', run c zipArchiver elapsed' t = .ok (summary.timed elapsed') t' ∧
      t'.workshop.files = s'.workshop.files ∧ s'.out = c.banner.foldl Sink.writeLine s.out ∧
      t'.out = c.banner.foldl Sink.writeLine t.out := by
  obtain ⟨classes, report, w₂, jars, w₃, filled, done, files, _, rfl⟩ := run_ok first
  obtain ⟨w₁, made, fill⟩ := filled.steps
  obtain ⟨mid, d, st, prepared⟩ :=
    prepare_ok made (Config.sound_of_validate filled.accepted) anchored
  have filling := prepared.fillStaging_fills rfl
  rw [fill, leftBy_ok] at filling
  have grown₂ := prepared.grows.trans filling.toGrows
  have finished := prepared.finish_left zipArchiver_keepsTo grown₂
  rw [done, leftBy_ok, ← files, ← left] at finished
  have grown : mid.Grows t.workshop.files := by
    rw [left, files]
    exact prepared.grows_of_finish zipArchiver_keepsTo grown₂ done
  -- The checks pass again, and both directories are made again.
  obtain ⟨f, listed, placed⟩ : ∃ f ∈ c.auxFiles, f.placement = .workingDir := by
    rw [manifest]
    decide
  obtain ⟨p, leads⟩ := prepared.delivered fill listed placed
  have accepted' :=
    prepared.accepted_again grown accepted beyond ⟨f, listed, placed, p, grown.leadsTo_iff.2 leads⟩
  obtain ⟨v₁, made', again⟩ := prepared.prepare_again filled.accepted made grown
  -- They are filled as before, and from there on all is as it was.
  obtain ⟨v₂, fill', same⟩ :=
    prepared.fill_again fill (prepared.retraces beyond filling grown finished again)
  obtain ⟨v₃, done', same'⟩ := (oblivious_finish c).ok done same
  obtain ⟨t', ran, files', out'⟩ :=
    run_of_finish (s := t) elapsed' ⟨accepted', v₁, made', fill'⟩ done'
  obtain ⟨s'', ran', _, out⟩ := run_of_finish elapsed filled done
  rw [first] at ran'
  cases ran'
  exact ⟨t', ran, by rw [files', same', files], out, out'⟩

/-- A game with a link to the directory that the output directory is in, and something left there
from before. -/
def circularGame : FileSystem :=
  roomyGame [("/pz/a.class", holding "class"), ("/pz/x.jar", holding "jar"),
    ("/pz/l", linkTo "/work/sub"), ("/work/sub", .directory), ("/work/sub/lib", .directory),
    ("/work/sub/lib/old.txt", holding "old")]

/-- The usual run there, with its output in that directory. -/
def circularConfig : Config := { usualConfig with outDir := "sub/lib" }

/-- All that can be reached lies in the game or where its link leads, and nothing is
delivered there. -/
theorem circularConfig_beyond (delivered : circularConfig.Delivers circularGame q) :
    ¬ circularConfig.Reaches (circularConfig.cleared circularGame) q := by
  intro reach
  have source : (circularConfig.cleared circularGame).LeadsTo (Utf8.encode "/pz")
      (Path.spelled (Utf8.encode "/pz")) :=
    Arrives.leads ⟨40, by decide +kernel⟩
  have working : (circularConfig.cleared circularGame).LeadsTo (Utf8.encode "/work")
      (Path.spelled (Utf8.encode "/work")) := Arrives.leads ⟨40, by decide +kernel⟩
  have onward : (circularConfig.cleared circularGame).Leads (Path.spelled (Utf8.encode "/pz"))
      [.name ⟨Utf8.encode "l", by decide⟩] (Path.spelled (Utf8.encode "/work/sub")) :=
    Leads.of_follow
      (by decide +kernel : (circularConfig.cleared circularGame).follow 40 _ _ = .ok ⟨_, 39⟩)
  have links : ∀ p ∈ (circularConfig.cleared circularGame).links,
      ¬ Path.spelled (Utf8.encode "/work") <+: p := by
    decide +kernel
  have sound :=
    Config.sound_of_validate (by decide +kernel : circularConfig.validate circularGame = .ok ())
  obtain ⟨f, listed, placed, _, leads⟩ := delivered
  obtain rfl := leads.eq_of_join working (sound.target f listed) fun r target isLink =>
    links _ (mem_links isLink) (List.prefix_append ..)
  have apart : ∀ f ∈ defaultManifest, f.placement = .workingDir →
      ¬ (Path.spelled (Utf8.encode "/pz") <+: Path.spelled (Utf8.encode "/work") ++
        namesOf f.target ∨ Path.spelled (Utf8.encode "/work/sub") <+:
          Path.spelled (Utf8.encode "/work") ++ namesOf f.target) := by
    decide
  exact apart f listed placed (reach.of_one_link source onward (by decide +kernel))

/-- The second run finds the first one's archive, by way of the game's link, just as the
first run did. -/
theorem second_run_changes_nothing_circular :
    ∃ summary s' s'', run circularConfig zipArchiver 5 (.opening circularGame) = .ok summary s' ∧
      summary.prebuiltArchives = 2 ∧
      run circularConfig zipArchiver 7 s' = .ok (summary.timed 7) s'' ∧
      s''.workshop.files = s'.workshop.files := by
  have result : resultOf? (run circularConfig zipArchiver 5 (.opening circularGame)) =
      some ⟨"/work/sub/lib/b42.jar", 1, ⟨1, 3⟩, 2, 5⟩ := by decide +kernel
  obtain ⟨s', first⟩ := resultOf?_eq_some result
  have accepted : circularConfig.validate (circularConfig.cleared circularGame) = .ok () := by
    decide +kernel
  have beyond : ∀ q, _ := fun q => circularConfig_beyond (q := q)
  rw [← Session.opening_files circularGame] at accepted beyond
  obtain ⟨s'', second, same, _⟩ := second_run_changes_nothing (t := s') rfl
    (.of_absolute (by decide) (by decide) (by decide)) accepted beyond first rfl 7
  exact ⟨_, s', s'', first, rfl, second, same⟩

/-- A game with a link to a file that the run itself delivers. -/
def staleGame : FileSystem :=
  roomyGame [("/pz/serialize.lua", linkTo "/work/media/lua/shared/defines.lua"),
    ("/work/media", .directory), ("/work/media/lua", .directory),
    ("/work/media/lua/shared", .directory), ("/work/media/lua/shared/defines.lua", holding "old")]

/-- The working directory's text steps up from a place that is not there: the old output directory
is not found. -/
def upwardConfig : Config := { sourceRoot := "/pz", workingDir := "/work/x/.." }

/-- An old output directory with something in it. -/
def oldGame : FileSystem :=
  roomyGame [("/work/lib", .directory), ("/work/lib/old.txt", holding "old")]

/-- The source root's text steps up from the old output directory. -/
def throughConfig : Config := { sourceRoot := "/work/lib/..", workingDir := "/work" }

/-- While that is a link, it steps up to somewhere else than afterwards. -/
def throughGame : FileSystem :=
  ([("/x", .directory), ("/x/y", .directory), ("/work", .directory), ("/work/lib", linkTo "/x/y"),
    ("/work/stdlib.lbc", holding "stdlib"), ("/work/serialize.lua", holding "serialize"),
    ("/work/media", .directory), ("/work/media/lua", .directory),
    ("/work/media/lua/shared", .directory),
    ("/work/media/lua/shared/defines.lua", holding "defines"),
    ("/work/media/lua/shared/Sandbox", .directory),
    ("/work/media/lua/shared/Sandbox/Apocalypse.lua", holding "apocalypse")]
  : List (String × Entry)).foldl (fun fs (text, e) => fs.plant text e) (empty {})

/-- Runs of the usual manifest that go well, where the second one

* copies what the first one has put behind the game's link;
* finds the old output directory, and takes away what the first one left there;
* is rejected: its working directory lies in what is now the source root. -/
theorem second_run_differs :
    (usualConfig.auxFiles = defaultManifest ∧
      (resultOf? (run usualConfig zipArchiver 0 (.opening staleGame))).isSome = true ∧
      (leavings usualConfig staleGame).holds "/work/serialize.lua" "old" = true ∧
      (leavings usualConfig (leavings usualConfig staleGame)).holds "/work/serialize.lua"
        "defines" = true) ∧
    (upwardConfig.auxFiles = defaultManifest ∧
      (resultOf? (run upwardConfig zipArchiver 0 (.opening oldGame))).isSome = true ∧
      (leavings upwardConfig oldGame).isFile (Utf8.encode "/work/lib/old.txt") = true ∧
      (leavings upwardConfig (leavings upwardConfig oldGame)).isFile
        (Utf8.encode "/work/lib/old.txt") = false) ∧
    (throughConfig.auxFiles = defaultManifest ∧
      (resultOf? (run throughConfig zipArchiver 0 (.opening throughGame))).isSome = true ∧
      resultOf? (run throughConfig zipArchiver 0 (.opening (leavings throughConfig throughGame))) =
        none) := by
  decide +kernel

end ClassPack
