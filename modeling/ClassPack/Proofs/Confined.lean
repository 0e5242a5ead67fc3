import ClassPack.Proofs.FileSystem.Footing
import ClassPack.Proofs.Halting
import ClassPack.Proofs.SourceRoot

/-!
# Confined — what a run may add, once the old output directory is gone

* `Config.Adds` — what may be new at a place: something in the output directory, a file for the
  working directory, or a directory on the way that one of the texts takes as it is written;
* `Config.Confined` — nothing that was left is lost, and all that is new is so: `prepare_confined`,
  then one lemma for each later step, and `halts_confined` for all ends of a run;
* `run_confined` — so a run changes nothing outside its outputs, as long as the working directory's
  text steps up only from places that are there. Otherwise it can: `run_not_confined`.
-/

namespace ClassPack

open FileSystem

variable {c : Config} {a : Archiver} {elapsed : Nat} {out out' : Place → Prop}
  {start mid fs gs hs : FileSystem} {d s q t : Place} {w w' : Workshop}

/-! ## What may be new -/

/-- A text whose directories a run makes where they are missing: that of the output directory, and
those directly above the texts of files for the working directory. -/
def Config.MakesWay (c : Config) (text : Path) : Prop :=
  text = c.destination ∨
    ∃ f ∈ c.auxFiles, f.placement = .workingDir ∧
      Path.parent? (Utf8.encode (joinText c.workingDir f.target)) = some text

/-- What may be new at a place in `left` once the old output directory is gone, all texts read as
they are then; `out` tells where in the output directory. -/
inductive Config.Adds (c : Config) (start : FileSystem) (out : Place → Prop) (left : FileSystem)
    (q : Place) : Prop where
  /-- Something in the output directory. -/
  | inside {d : Place} : (c.cleared start).LeadsTo c.destination d → d <+: q → out q →
    Adds c start out left q
  /-- A file for the working directory. -/
  | sent {f : AuxFile} {content : Content} : f ∈ c.auxFiles → f.placement = .workingDir →
      (c.cleared start).LeadsTo (Utf8.encode (joinText c.workingDir f.target)) q →
        left.at? q = some (.file content) → Adds c start out left q
  /-- A directory on the way of a text. -/
  | made {text : Path} : c.MakesWay text → (c.cleared start).OnWay text q →
      (c.cleared start).at? q = none → left.at? q = some .directory → Adds c start out left q

theorem Config.Adds.mono (weaker : ∀ q, out q → out' q) (h : c.Adds start out gs q) :
    c.Adds start out' gs q := by
  cases h with
  | inside leads below there => exact .inside leads below (weaker q there)
  | sent listed placed leads file => exact .sent listed placed leads file
  | made way onWay missing new => exact .made way onWay missing new

theorem Config.Adds.congr (same : hs.at? q = gs.at? q) (h : c.Adds start out gs q) :
    c.Adds start out hs q := by
  cases h with
  | inside leads below there => exact .inside leads below there
  | sent listed placed leads file => exact .sent listed placed leads (same.trans file)
  | made way onWay missing new => exact .made way onWay missing (same.trans new)

/-- Nothing is lost, and all that is new may be so. -/
structure Config.Confined (c : Config) (start : FileSystem) (out : Place → Prop)
    (left : FileSystem) : Prop extends Grows (c.cleared start) left where
  at? : ∀ q, left.at? q = (c.cleared start).at? q ∨ c.Adds start out left q

namespace Config.Confined

theorem refl (c : Config) (start : FileSystem) (out : Place → Prop) :
    c.Confined start out (c.cleared start) :=
  ⟨.refl _, fun _ => .inl rfl⟩

theorem mono (weaker : ∀ q, out q → out' q) (h : c.Confined start out gs) :
    c.Confined start out' gs where
  toGrows := h.toGrows
  at? q := (h.at? q).imp_right (·.mono weaker)

/-- One more step keeps what is confined so. -/
theorem step (h : c.Confined start out gs) (grown : (c.cleared start).Grows hs)
    (step : ∀ q, hs.at? q = gs.at? q ∨ c.Adds start out hs q) : c.Confined start out hs where
  toGrows := grown
  at? q := by
    rcases step q with same | adds
    · rw [same]
      exact (h.at? q).imp_right (·.congr same)
    · exact .inr adds

theorem of_madeOnWay {text : Path} (way : c.MakesWay text)
    (made : MadeOnWay text (c.cleared start) gs) : c.Confined start out gs where
  toGrows := made.grows
  at? q := by
    rcases made.at? q with same | ⟨missing, new, onWay⟩
    · exact .inl same
    · exact .inr (.made way onWay missing new)

end Config.Confined

/-- Where a run puts anything in the output directory before it copies the jars: below the staging
directory, and at the archive. -/
def Config.Workplace (c : Config) (start : FileSystem) (q : Place) : Prop :=
  (∃ s, (c.cleared start).LeadsTo c.staging s ∧ s <+: q) ∨ (c.cleared start).LeadsTo c.archive q

/-! ## Step by step -/

/-- With one more name at most there is nothing in between. -/
theorem Place.eq_or_above_of_single {names : Place} (single : names.length ≤ 1)
    (above : q <+: d ++ names) : q = d ++ names ∨ q <+: d := by
  match names, single with
  | [], _ => exact .inr (by simpa using above)
  | [n], _ => exact List.prefix_concat_iff.1 above

/-- The same configuration with a source root that is always there. Where things are put does not
depend on it. -/
def Config.fromRoot (c : Config) : Config := { c with sourceRoot := "/" }

theorem Config.fromRoot_anchored (steady : (c.cleared fs).Steady (Utf8.encode c.workingDir)) :
    c.fromRoot.Anchored fs :=
  ⟨steady, starts_of_absolute (show Path.isAbsolute (Utf8.encode "/") = true by decide)⟩

theorem Config.fromRoot_sound (sound : c.Sound) : c.fromRoot.Sound := { sound with }

/-- Directories are made on the way of the output directory's text, and then in it. -/
theorem prepare_confined (accepted : c.validate w.files = .ok ())
    (steady : (c.cleared w.files).Steady (Utf8.encode c.workingDir)) :
    c.Confined w.files (c.Workplace w.files) (leftBy (prepare c w)).files := by
  have sound := Config.sound_of_validate accepted
  have steady : (c.cleared w.files).Steady c.destination := steady.joinText sound.outDir
  unfold prepare
  obtain ⟨w₀, logged, same⟩ := Work.log_ok .debug s!"rebuilding {c.layout.destinationRoot}" w
  rw [bind_of_ok logged]
  rw [← same] at steady ⊢
  have outer : c.Confined w₀.files (c.Workplace w₀.files)
      (leftBy (recreateDir c.layout.destinationRoot w₀)).files :=
    .of_madeOnWay (.inl rfl) (recreateDir_made c.layout.destinationRoot w₀)
  cases first : recreateDir c.layout.destinationRoot w₀ with
  | error e w₁ =>
      rw [first] at outer
      rwa [bind_of_error first]
  | ok _ w₁ =>
      rw [first, leftBy_ok] at outer
      rw [bind_of_ok first]
      obtain ⟨d, rebuilt⟩ := recreateDir_ok first sound.destination_ne_nil steady
      have untouched : w₁.files.without c.staging = w₁.files := without_staging rebuilt sound
      have steady' : (w₁.files.without c.staging).Steady c.staging := by
        rw [untouched]
        exact (steady.of_within outer.toWithin).joinText sound.stagingDir
      have inner := prepareStaging_left c.layout.stagingDir w₁ sound.staging_ne_nil steady'
      have grown := prepareStaging_grows c.layout.stagingDir w₁ sound.staging_ne_nil steady'
      change Around c.staging (w₁.files.without c.staging) _ at inner
      change (w₁.files.without c.staging).Grows _ at grown
      rw [untouched] at inner grown
      refine outer.step (outer.toGrows.trans grown) fun q => ?_
      rcases inner.at? q with same | ⟨s, leads, near⟩
      · exact .inl same
      · have place := leads.eq_of_join rebuilt.arrives.leads sound.stagingDir rebuilt.plain
        have below : d <+: s := place ▸ List.prefix_append ..
        have under : s <+: q := by
          rcases near with under | ⟨above, missing⟩
          · exact under
          · rw [place] at above ⊢
            rcases Place.eq_or_above_of_single (Config.stagingName_of_validate accepted) above with
              here | higher
            · exact here ▸ List.prefix_refl _
            · -- The output directory is there, and so is all above it.
              simp [rebuilt.raised.at?, higher] at missing
        exact .inr (.inside rebuilt.leads (below.trans under)
          (.inl ⟨s, outer.toGrows.leadsTo_iff.1 leads, under⟩))

namespace Config.Prepared

variable {f : AuxFile} (h : c.fromRoot.Prepared start mid fs d s)

include h

/-- Whatever is new below the staging directory is new in its workplace. -/
theorem adds_of_staging (under : s <+: q) : c.Adds start (c.Workplace start) gs q := by
  have leads : (c.cleared start).LeadsTo c.staging s :=
    (h.bare_grows (.refl mid)).leadsTo_iff.1 (h.leads_staging (.refl mid))
  exact .inside h.outer.leads (h.below.trans under) (.inl ⟨s, leads, under⟩)

/-- Files put below the staging directory are, and so are the directories made above them. -/
theorem adds_of_fills {ts : Place → Prop} (grown : fs.Grows gs) (fills : Fills ts gs hs)
    (under : ∀ t, ts t → s <+: t) (q : Place) :
    hs.at? q = gs.at? q ∨ c.Adds start (c.Workplace start) hs q := by
  rcases fills.at? q with same | ⟨missing, _, t, toward, above⟩ | ⟨_, toward⟩
  · exact .inl same
  · refine .inr (h.adds_of_staging ?_)
    rcases List.prefix_or_prefix_of_prefix above (under t toward) with higher | deeper
    · have there : gs.at? s = some .directory := grown.directory h.inner.at?_self
      exact absurd missing (at?_ne_none_of_above (by simp [there]) higher)
    · exact deeper
  · exact .inr (h.adds_of_staging (under q toward))

theorem copyAuxFile_adds (listed : f ∈ c.auxFiles) (grown : fs.Grows w.files) :
    w.files.Grows (leftBy (copyAuxFile c.sourceRoot c.layout.stagingDir c.workingDir f w)).files ∧
      ∀ q, (leftBy (copyAuxFile c.sourceRoot c.layout.stagingDir c.workingDir f w)).files.at? q =
        w.files.at? q ∨ c.Adds start (c.Workplace start)
          (leftBy (copyAuxFile c.sourceRoot c.layout.stagingDir c.workingDir f w)).files q := by
  have later : mid.Grows w.files := h.grows.trans grown
  cases placed : f.placement with
  | staged =>
      have goes : f.destination c.layout.stagingDir c.workingDir =
          joinText c.layout.stagingDir f.target := by
        simp [AuxFile.destination, placed]
      have fills := copyAuxFile_fills c.sourceRoot c.layout.stagingDir c.workingDir f w
        (h.steady_destination later listed)
      refine ⟨fills.toGrows, h.adds_of_fills grown fills fun t toward => ?_⟩
      obtain ⟨_, leads⟩ := toward
      rw [goes] at leads
      exact h.place_of_leadsTo_staging later (h.sound.target f listed) leads ▸ List.prefix_append ..
  | workingDir =>
      have goes : f.destination c.layout.stagingDir c.workingDir =
          joinText c.workingDir f.target := by
        simp [AuxFile.destination, placed]
      have bare_grows := h.bare_grows later
      unfold copyAuxFile
      rw [goes, bind_of_ok (show Work.view _ w = .ok _ w from rfl)]
      split
      · exact ⟨.refl _, fun _ => .inl rfl⟩
      · obtain ⟨w₁, logged, same⟩ := Work.log_ok .debug
          s!"auxiliary file {f.source} -> {joinText c.workingDir f.target}" w
        rw [bind_of_ok logged, ← same]
        rw [← same] at bare_grows
        obtain ⟨grows, left⟩ :=
          copyFile_left (joinText c.sourceRoot f.source) (joinText c.workingDir f.target) w₁
        refine ⟨grows, fun q => ?_⟩
        rcases left q with same | ⟨upper, above, onWay, missing, new⟩ | ⟨leads, content, file⟩
        · exact .inl same
        · have missing' : (c.cleared start).at? q = none := by
            by_contra there
            exact bare_grows.toWithin.ne_none there missing
          exact .inr (.made (.inr ⟨f, listed, placed, above⟩)
            (bare_grows.onWay_iff.1 onWay) missing' new)
        · exact .inr (.sent listed placed (bare_grows.leadsTo_iff.1 leads) file)

theorem copyAuxFiles_confined {files : List AuxFile} (listed : ∀ f ∈ files, f ∈ c.auxFiles)
    (grown : fs.Grows w.files)
    (confined : c.Confined start (c.Workplace start) w.files) :
    fs.Grows (leftBy (forM files (copyAuxFile c.sourceRoot c.layout.stagingDir c.workingDir)
      w)).files ∧ c.Confined start (c.Workplace start)
        (leftBy (forM files (copyAuxFile c.sourceRoot c.layout.stagingDir c.workingDir)
          w)).files := by
  induction files generalizing w with
  | nil => exact ⟨grown, confined⟩
  | cons f rest ih =>
      obtain ⟨grows, adds⟩ := h.copyAuxFile_adds (listed f (List.mem_cons_self ..)) grown
      have first := grown.trans grows
      have confined := confined.step (h.bare_grows (h.grows.trans first)) adds
      rw [List.forM_cons]
      cases copied : copyAuxFile c.sourceRoot c.layout.stagingDir c.workingDir f w with
      | error e w₁ =>
          rw [copied] at first confined
          rw [bind_of_error copied]
          exact ⟨first, confined⟩
      | ok _ w₁ =>
          rw [copied] at first confined
          rw [bind_of_ok copied]
          exact ih (fun g there => listed g (List.mem_cons_of_mem _ there)) first confined

theorem fillStaging_confined (same : w.files = fs)
    (confined : c.Confined start (c.Workplace start) w.files) :
    fs.Grows (leftBy (fillStaging c w)).files ∧
      c.Confined start (c.Workplace start) (leftBy (fillStaging c w)).files := by
  subst same
  have fills := collect_fills c.sourceRoot .classFiles c.layout.stagingDir w
    ((h.steady h.grows).joinText h.sound.stagingDir)
  have adds := h.adds_of_fills (.refl _) fills fun t ⟨names, leads⟩ => by
    have place := leads.unique
      ((h.leads_staging h.grows).join (Path.descends_relativePath names) (h.plain_staging h.grows))
    exact place ▸ List.prefix_append ..
  have first := fills.toGrows
  have confined := confined.step (h.bare_grows (h.grows.trans first)) adds
  unfold fillStaging
  cases found : collect c.sourceRoot .classFiles c.layout.stagingDir w with
  | error e w₁ =>
      rw [found] at first confined
      rw [bind_of_error found]
      exact ⟨first, confined⟩
  | ok classes w₁ =>
      rw [found, leftBy_ok] at first confined
      rw [bind_of_ok found]
      have all := h.copyAuxFiles_confined (fun _ there => there) first confined
      rw [copyAuxFiles_eq]
      cases copied : forM c.auxFiles
          (copyAuxFile c.sourceRoot c.layout.stagingDir c.workingDir) w₁ with
      | error e w₂ =>
          rw [copied] at all
          rw [bind_of_error (bind_of_error copied)]
          exact all
      | ok _ w₂ =>
          rw [copied] at all
          -- What is left to do only counts.
          have done : (forM c.auxFiles (copyAuxFile c.sourceRoot c.layout.stagingDir
              c.workingDir) >>= fun _ =>
              (pure (AuxReport.ofManifest c.auxFiles) : Work AuxReport)) w₁ = .ok _ w₂ :=
                bind_of_ok copied
          rw [bind_of_ok done]
          exact all

end Config.Prepared

/-- A run whose staging directory has been filled: the output directory made then is still there,
and all that is new is in the workplace. -/
structure Config.Underway (c : Config) (start mid fs : FileSystem) (d s : Place) (gs : FileSystem) :
    Prop where
  prepared : c.fromRoot.Prepared start mid fs d s
  grown : mid.Grows gs
  confined : c.Confined start (c.Workplace start) gs

namespace Config.Underway

variable (h : c.Underway start mid fs d s w.files)

include h

theorem pack (keeps : a.KeepsTo) :
    c.Underway start mid fs d s (leftBy
      (a.pack c.layout.stagingDir c.layout.archivePath w)).files := by
  obtain ⟨prepared, grown, confined⟩ := h
  obtain ⟨grows, changed⟩ := prepared.pack_phase keeps grown
  refine ⟨prepared, grows, confined.step (prepared.bare_grows grows) fun q => ?_⟩
  rcases changed q with same | ⟨n, named, here⟩
  · exact .inl same
  · have leads := (prepared.bare_grows grown).leadsTo_iff.1 (prepared.leads_archive grown)
    rw [named] at leads
    subst here
    exact .inr (.inside prepared.outer.leads (List.prefix_append ..) (.inr leads))

theorem cleanup :
    c.Underway start mid fs d s (leftBy (cleanupStaging c.layout.stagingDir w)).files := by
  obtain ⟨prepared, grown, confined⟩ := h
  obtain ⟨grows, changed⟩ := prepared.cleanup_phase grown
  refine ⟨prepared, grows, confined.step (prepared.bare_grows grows) fun q => ?_⟩
  exact (changed q).imp_right fun lost => prepared.adds_of_staging lost.2.1

/-- The jars come anywhere in the output directory. -/
theorem jars : c.Confined start (fun _ => True)
    (leftBy (collect c.sourceRoot .prebuiltArchives c.layout.destinationRoot w)).files := by
  obtain ⟨prepared, grown, confined⟩ := h
  have fills :=
    collect_fills c.sourceRoot .prebuiltArchives c.layout.destinationRoot w (prepared.steady grown)
  have below : ∀ t, (∃ names : Place, w.files.LeadsTo
      (Path.join (Utf8.encode c.layout.destinationRoot) names.relativePath) t) →
      d <+: t := fun t ⟨names, leads⟩ => by
    have descends := Path.descends_relativePath names
    have place := leads.unique ((prepared.leads grown).join descends (prepared.plain grown))
    exact place ▸ List.prefix_append ..
  have grows := prepared.bare_grows (grown.trans fills.toGrows)
  refine (confined.mono fun _ _ => trivial).step grows fun q => ?_
  rcases fills.at? q with same | ⟨missing, _, t, toward, above⟩ | ⟨_, toward⟩
  · exact .inl same
  · rcases List.prefix_or_prefix_of_prefix above (below t toward) with higher | deeper
    · exact absurd missing (prepared.ne_none_of_above grown higher)
    · exact .inr (.inside prepared.outer.leads deeper trivial)
  · exact .inr (.inside prepared.outer.leads (below q toward) trivial)

end Config.Underway

/-! ## Whole runs -/

/-- Without a place to start from, a run stops when it is to make the output directory, and has
made nothing. -/
theorem prepare_of_not_starts (accepted : c.validate w.files = .ok ())
    (firm : (c.cleared w.files).Firm (Utf8.encode c.workingDir))
    (lost : ¬ (c.cleared w.files).Starts (Utf8.encode c.workingDir)) :
    ∃ e w', prepare c w = .error e w' ∧ w'.files = c.cleared w.files := by
  have sound := Config.sound_of_validate accepted
  have firm : (c.cleared w.files).Firm c.destination := firm.joinText sound.outDir
  have lost : ¬ (c.cleared w.files).Starts c.destination := by
    unfold Starts at lost ⊢
    rwa [Config.destination, Config.layout, encode_joinText, Path.origin_join sound.outDir.relative]
  obtain ⟨fault, stuck⟩ := createDirs_of_not_starts sound.destination_ne_nil firm lost
  unfold prepare
  obtain ⟨w₀, logged, same⟩ := Work.log_ok .debug s!"rebuilding {c.layout.destinationRoot}" w
  rw [bind_of_ok logged]
  rw [← same] at stuck ⊢
  have bare :=
    Work.leftBy_files (.removeFailed c.layout.destinationRoot) (removeTreeIfThere c.destination) w₀
  unfold recreateDir removeDir
  cases removal : Work.files (.removeFailed c.layout.destinationRoot)
      (removeTreeIfThere c.destination) w₀ with
  | error e w₁ =>
      rw [removal] at bare
      exact ⟨e, w₁, bind_of_error (bind_of_error removal), bare⟩
  | ok _ w₁ =>
      rw [removal] at bare
      have failed : Work.files .io (createDirs c.destination) w₁ = .error (.io fault) w₁ := by
        have here : w₁.files = c.cleared w₀.files := bare
        rw [← here] at stuck
        simp [Work.files, stuck]
      exact ⟨_, w₁, bind_of_error ((bind_of_ok removal).trans failed), bare⟩

theorem underway_of_prepared {w₁ : Workshop} (accepted : c.validate w.files = .ok ())
    (made : prepare c w = .ok () w₁)
    (steady : (c.cleared w.files).Steady (Utf8.encode c.workingDir)) :
    ∃ mid d s, c.Underway w.files mid w₁.files d s w₁.files := by
  obtain ⟨mid, d, s, prepared⟩ := prepare_ok (c := c.fromRoot) made
    (Config.fromRoot_sound (Config.sound_of_validate accepted)) (Config.fromRoot_anchored steady)
  have confined := prepare_confined accepted steady
  rw [made] at confined
  exact ⟨mid, d, s, prepared, prepared.grows, confined⟩

theorem underway_of_filled {classes : List String} {report : AuxReport}
    (filled : c.Filled w classes report w')
    (steady : (c.cleared w.files).Steady (Utf8.encode c.workingDir)) :
    ∃ mid fs d s, c.Underway w.files mid fs d s w'.files := by
  obtain ⟨accepted, w₁, made, fill⟩ := filled
  obtain ⟨mid, d, s, prepared, grows, confined⟩ := underway_of_prepared accepted made steady
  obtain ⟨grown, confined⟩ := prepared.fillStaging_confined rfl confined
  rw [fill] at grown confined
  exact ⟨mid, w₁.files, d, s, prepared, grows.trans grown, confined⟩

theorem underway_of_packed {classes : List String} {report : AuxReport} {w₁ w₂ : Workshop}
    (filled : c.Filled w classes report w₁)
    (packed : a.pack c.layout.stagingDir c.layout.archivePath w₁ = .ok () w₂)
    (steady : (c.cleared w.files).Steady (Utf8.encode c.workingDir)) (keeps : a.KeepsTo) :
    ∃ mid fs d s, c.Underway w.files mid fs d s w₂.files := by
  obtain ⟨mid, fs, d, s, underway⟩ := underway_of_filled filled steady
  have packing := underway.pack keeps
  rw [packed] at packing
  exact ⟨mid, fs, d, s, packing⟩

/-- Once the staging directory is taken away, copies of the jars stay in the output directory,
whether all go well or not. -/
theorem jars_confined {classes : List String} {report : AuxReport} {w₁ w₂ w₃ : Workshop}
    (filled : c.Filled w classes report w₁)
    (packed : a.pack c.layout.stagingDir c.layout.archivePath w₁ = .ok () w₂)
    (cleaned : cleanupStaging c.layout.stagingDir w₂ = .ok () w₃)
    (steady : (c.cleared w.files).Steady (Utf8.encode c.workingDir)) (keeps : a.KeepsTo) :
    c.Confined w.files (fun _ => True)
      (leftBy (collect c.sourceRoot .prebuiltArchives c.layout.destinationRoot w₃)).files := by
  obtain ⟨_, _, _, _, underway⟩ := underway_of_packed filled packed steady keeps
  have cleaning := underway.cleanup
  rw [cleaned] at cleaning
  exact cleaning.jars

/-- However a run ends that was accepted, all that it leaves is confined; before the jars are
copied, only the workplace of the output directory is used. -/
theorem halts_confined {h : Halt} (ends : Halts c a w h) (accepted : c.validate w.files = .ok ())
    (firm : (c.cleared w.files).Firm (Utf8.encode c.workingDir)) (keeps : 3 ≤ h.lines → a.KeepsTo) :
    c.Confined w.files (fun q => 4 < h.lines ∨ c.Workplace w.files q) h.left.files := by
  by_cases starts : (c.cleared w.files).Starts (Utf8.encode c.workingDir)
  · have steady := firm.steady starts
    cases ends with
    | rejected refused => simp [accepted] at refused
    | preparing _ stopped =>
        have preparing := prepare_confined accepted steady
        rw [stopped] at preparing
        exact preparing.mono fun _ => .inr
    | filling _ made stopped =>
        obtain ⟨_, _, _, underway⟩ := underway_of_prepared accepted made steady
        have filling := (underway.prepared.fillStaging_confined rfl underway.confined).2
        rw [stopped] at filling
        exact filling.mono fun _ => .inr
    | packing filled stopped =>
        obtain ⟨_, _, _, _, underway⟩ := underway_of_filled filled steady
        have packing := underway.pack (keeps (Nat.le_refl 3))
        rw [stopped] at packing
        exact packing.confined.mono fun _ => .inr
    | cleaning filled packed stopped =>
        obtain ⟨_, _, _, _, underway⟩ :=
          underway_of_packed filled packed steady (keeps (show 3 ≤ 4 by decide))
        have cleaning := underway.cleanup
        rw [stopped] at cleaning
        exact cleaning.confined.mono fun _ => .inr
    | copying filled packed cleaned stopped =>
        have copying := jars_confined filled packed cleaned steady (keeps (show 3 ≤ 6 by decide))
        rw [stopped] at copying
        exact copying.mono fun _ _ => .inl (show 4 < 6 by decide)
    | finished stages =>
        have copying :=
          jars_confined stages.filled stages.packed stages.cleaned steady
            (keeps (show 3 ≤ 6 by decide))
        rw [stages.copied] at copying
        exact copying.mono fun _ _ => .inl (show 4 < 6 by decide)
  · obtain ⟨e, w', stopped, left⟩ := prepare_of_not_starts accepted firm starts
    obtain rfl := ends.eq_halt.trans (Halts.preparing (a := a) accepted stopped).eq_halt.symm
    simpa only [left] using Config.Confined.refl c w.files _

/-- However a run ends, what is not there any more lay in the old output directory, and what has
changed lies in the old one or the new one, or is a file where an entry of the manifest goes in the
working directory, or a new directory on the way of the output directory's text or of the text above
such an entry. -/
theorem run_confined {s : Session} (trusted : a.Trusted)
    (firm : (c.cleared s.workshop.files).Firm (Utf8.encode c.workingDir)) :
    let start := s.workshop.files
    let left := (leftBy (run c a elapsed s)).workshop.files
    (∀ q, left.at? q = start.at? q ∨
      (∃ d, (start.Names c.destination d ∨ (c.cleared start).LeadsTo c.destination d) ∧ d <+: q) ∨
      (∃ f ∈ c.auxFiles, f.placement = .workingDir ∧
        (c.cleared start).LeadsTo (Utf8.encode (joinText c.workingDir f.target)) q ∧
          ∃ content, left.at? q = some (.file content)) ∨
      ∃ text, c.MakesWay text ∧ (c.cleared start).OnWay text q ∧ start.at? q = none ∧
        left.at? q = some .directory) ∧
    (∀ q, start.at? q ≠ none → left.at? q = none → ∃ d, start.Names c.destination d ∧ d <+: q) ∧
    left.workingDir = start.workingDir ∧ left.limits = start.limits := by
  intro start left
  have ends := halts_halt c a s.workshop
  have same : left = (c.halt a s.workshop).left.files := (run_of_halts elapsed ends).2.2.2
  rw [same]
  cases accepted : c.validate start with
  | error e =>
      have rejected := (Halts.rejected (a := a) accepted).eq_halt
      rw [← rejected]
      exact ⟨fun q => .inl rfl, fun q there gone => absurd gone there, rfl, rfl⟩
  | ok _ =>
      have confined := halts_confined ends accepted firm fun _ => trusted.keepsTo
      have away : TookAway c.destination start (c.cleared start) :=
        start.without_tookAway c.destination
      refine ⟨fun q => ?_, fun q there gone => ?_, confined.workingDir.trans away.workingDir,
        confined.limits.trans away.limits⟩
      · rcases away.at? q with kept | ⟨_, d, names, below, _⟩
        · rw [← kept]
          rcases confined.at? q with same | adds
          · exact .inl same
          · refine .inr ?_
            cases adds with
            | inside leads below _ => exact .inl ⟨_, .inr leads, below⟩
            | sent listed placed leads file => exact .inr (.inl ⟨_, listed, placed, leads, _, file⟩)
            | made way onWay missing new => exact .inr (.inr ⟨_, way, onWay, missing, new⟩)
        · exact .inr (.inl ⟨d, .inl names, below⟩)
      · -- What was left when the old output directory was gone is still there.
        rcases away.at? q with kept | ⟨_, d, names, below, _⟩
        · exact absurd gone (confined.toWithin.ne_none (kept ▸ there))
        · exact ⟨d, names, below⟩

/-- Beside a game only the output directory changes, and the file for the working directory. -/
theorem run_confined_beside :
    besideConfig.validate besideGame = .ok () ∧
      ∀ q, (leavings besideConfig besideGame).at? q = besideGame.at? q ∨
        Path.spelled (Utf8.encode "/work/lib") <+: q ∨
        q = Path.spelled (Utf8.encode "/work/b.class") := by
  have linkless : besideGame.links = [] := by decide
  have cleared : (besideConfig.cleared besideGame).links = [] := by decide
  refine ⟨by decide, fun q => ?_⟩
  obtain ⟨places, _⟩ :=
    @run_confined besideConfig zipArchiver 0 (.opening besideGame) .zip (.of_noUp (by decide))
  -- Only the output directory itself is missing on the way.
  have upper : ∀ n < 3, besideGame.at? ((Path.spelled (Utf8.encode "/work/lib")).take n) = none →
      Path.spelled (Utf8.encode "/work/lib") <+:
        (Path.spelled (Utf8.encode "/work/lib")).take n := by decide
  have onWay : ∀ text : Path, text = Utf8.encode "/work/lib" ∨ text = Utf8.encode "/work" →
      (besideConfig.cleared besideGame).OnWay text q → besideGame.at? q = none →
        Path.spelled (Utf8.encode "/work/lib") <+: q := by
    intro text which onWay missing
    have above : q <+: Path.spelled (Utf8.encode "/work/lib") := by
      rcases which with rfl | rfl
      · exact prefix_of_onWay_of_links cleared (by decide) (by decide) onWay
      · exact (prefix_of_onWay_of_links cleared (by decide) (by decide) onWay).trans (by decide)
    rw [List.prefix_iff_eq_take.1 above] at missing ⊢
    exact upper q.length (Nat.lt_succ_of_le above.length_le) missing
  rcases places q with same | ⟨d, named, below⟩ | ⟨f, listed, _, leads, _⟩ |
    ⟨text, way, onWay', missing, _⟩
  · exact .inl same
  · have here : d = Path.spelled (Utf8.encode "/work/lib") := by
      rcases named with names | leads
      · exact place_of_names linkless (by decide) names
      · exact place_of_leadsTo cleared (by decide) leads
    exact .inr (.inl (here ▸ below))
  · obtain rfl : f = ⟨"a.class", "b.class", .workingDir⟩ := by simpa [besideConfig] using listed
    exact .inr (.inr (place_of_leadsTo cleared (by decide) leads))
  · refine .inr (.inl (onWay text ?_ onWay' missing))
    rcases way with rfl | ⟨f, listed, _, above⟩
    · exact .inl (by decide)
    · obtain rfl : f = ⟨"a.class", "b.class", .workingDir⟩ := by simpa [besideConfig] using listed
      exact .inr (Option.some.inj (above.symm.trans (by decide)))

/-- An old output directory in which the archive is a link to a file elsewhere. -/
def keptGame : FileSystem :=
  ((besideGame.plant "/kept" (holding "kept")).plant "/work/lib" .directory).plant
    "/work/lib/b42.jar" (linkTo "../../kept")

/-- The working directory's text steps up from a place that is not there: the old output directory
is not found, and stays. -/
def backingConfig : Config := { sourceRoot := "/pz", workingDir := "/work/x/..", auxFiles := [] }

/-- A file for the working directory is a link that passes through the old output directory, which
is itself a link. -/
def passingGame : FileSystem :=
  (((((((((besideGame.plant "/pz/f.txt" (holding "new")).plant "/x" .directory).plant "/x/y"
    .directory).plant "/x/data" .directory).plant "/x/data/f.txt"
      (holding "other")).plant "/work/lib" (linkTo "../x/y")).plant "/work/data"
      .directory).plant "/work/data/f.txt" (holding "old")).plant "/work/f.txt"
        (linkTo "lib/../data/f.txt"))

/-- A run there, with that file. -/
def passingConfig : Config :=
  { sourceRoot := "/pz", workingDir := "/work", auxFiles := [⟨"f.txt", "f.txt", .workingDir⟩] }

/-- Runs that are accepted can write over a file outside the output directory without an entry of
the manifest, and an entry can go elsewhere than it led before the run. -/
theorem run_not_confined :
    (backingConfig.validate keptGame = .ok () ∧ keptGame.canonical? "/work/lib" = some "/work/lib" ∧
      (leavings backingConfig keptGame).canonical? backingConfig.layout.destinationRoot =
        some "/work/lib" ∧
      keptGame.holds "/kept" "kept" = true ∧
      (leavings backingConfig keptGame).isFile (Utf8.encode "/kept") = true ∧
      (leavings backingConfig keptGame).holds "/kept" "kept" = false) ∧
    (passingConfig.validate passingGame = .ok () ∧
      passingGame.canonical? "/work/f.txt" = some "/x/data/f.txt" ∧
      (leavings passingConfig passingGame).holds "/x/data/f.txt" "other" = true ∧
      passingGame.holds "/work/data/f.txt" "old" = true ∧
      (leavings passingConfig passingGame).holds "/work/data/f.txt" "new" = true) := by
  decide +kernel

end ClassPack
