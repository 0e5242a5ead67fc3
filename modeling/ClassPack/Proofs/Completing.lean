import ClassPack.Proofs.Site
import ClassPack.Proofs.WorkingFiles

/-!
# Completing — which accepted configurations are carried out

* `Config.Unobstructed` — the names chosen keep out of each other's way. The checks do not ask for
  that;
* `Config.Feasible` — so it is at a site. One lemma for each step of a run, from
  `Feasible.prepare_done` to `Feasible.jars_done`: nothing stops it;
* `AtSite.unobstructed_of_stages` — conversely, of names that are in each other's way, one
  stops the run;
* `AtSite.fitsArchive_of_stages` — and so of files that are too large for the archive;
* `run_completes_iff` — at a site, what is accepted is carried out exactly if it is unobstructed and
  the archive takes the files. Otherwise the run breaks off half-way: `accepted_run_breaks_off`.
-/

namespace ClassPack

open FileSystem

variable {c : Config} {elapsed : Nat} {s : Session} {start mid fs gs hs : FileSystem}
  {S W d q st t : Place} {w w' w₁ w₂ w₃ w₄ : Workshop} {names : Place} {path : String}
  {f g : AuxFile} {classes jars : List String} {report : AuxReport} {ds : List Copied} {n : Name}

/-- The names chosen keep out of each other's way. -/
structure Config.Unobstructed (c : Config) (fs : FileSystem) : Prop where
  /-- The system neither makes nor removes a directory by way of a final dot. -/
  outDir : (Path.segments (Utf8.encode c.outDir)).getLast? ≠ some .here
  stagingDir : (Path.segments (Utf8.encode c.stagingDirName)).getLast? ≠ some .here
  /-- The archive is not put where the staging directory is. -/
  archive : namesOf c.stagingDirName ≠ namesOf c.layout.archiveName
  /-- No file for the working directory is put at the staging directory or above it, -/
  working : ∀ f ∈ c.auxFiles, f.placement = .workingDir →
    ¬ namesOf f.target <+: namesOf c.outDir ++ namesOf c.stagingDirName
  /-- nor at a staged class file or above it, -/
  classes : ∀ path, Shows fs c.sourceRoot ".class" path (namesOf path) →
    ∀ f ∈ c.auxFiles, f.placement = .workingDir →
    ¬ namesOf f.target <+: namesOf c.outDir ++ namesOf c.stagingDirName ++ namesOf path
  /-- nor, if it is left by the cleanup, at a copied jar or above it; and neither is the archive. -/
  jars : ∀ path, Shows fs c.sourceRoot ".jar" path (namesOf path) →
    ¬ (namesOf path).GoesThrough "jre" → ¬ (namesOf path).GoesThrough "jre64" →
    ¬ (namesOf path).GoesThrough c.layout.archiveName ∧
      ∀ f ∈ c.auxFiles, f.placement = .workingDir →
        ¬ namesOf c.outDir ++ namesOf c.stagingDirName <+: namesOf f.target →
          ¬ namesOf f.target <+: namesOf c.outDir ++ namesOf path

/-- An entry of the archive takes every file that is put into the staging directory. -/
def Config.FitsArchive (c : Config) (fs : FileSystem) (S : Place) : Prop :=
  ∀ names content, c.StagesFile fs S names content → fs.limits.fitsEntry content = true

/-- Whether all fits is seen by a look at the source root. -/
theorem Config.FitsArchive.of_below (directory : fs.at? S = some .directory)
    (sizes : ∀ x ∈ fs.below S, x.2.fitsArchive fs.limits = true) : c.FitsArchive fs S := by
  have source : ∀ {names content}, fs.at? (S ++ names) = some (.file content) →
      fs.limits.fitsEntry content = true := by
    intro names content file
    have inner : names ≠ [] := by
      rintro rfl
      simp [directory] at file
    exact sizes _ (mem_below.2 ⟨inner, file⟩)
  intro names content staged
  cases staged with
  | classFile _ file => exact source file
  | auxFile _ _ _ file => exact source file

/-- An accepted configuration at a site, whose names keep out of each other's way and whose files
fit the archive. -/
structure Config.Feasible (c : Config) (fs : FileSystem) (S W : Place) :
    Prop extends c.AtSite fs S W where
  unobstructed : c.Unobstructed fs
  fits : c.FitsArchive fs S

/-- A text that goes down to a name, and does not end in a dot, ends in the name. -/
theorem Path.Descends.inward {p : Path} (descends : p.Descends) (noZero : 0 ∉ p)
    (named : Segment.names p.segments ≠ []) (final : p.segments.getLast? ≠ some .here) :
    p.Inward where
  toDescends := descends
  noZero := noZero
  ends := by
    obtain ⟨before, n, j, split⟩ := Segment.exists_last_name descends.noUp named
    cases j with
    | zero => exact ⟨before, n, split⟩
    | succ j =>
        rw [List.replicate_succ', ← List.cons_append, ← List.append_assoc] at split
        exact absurd (by rw [split, List.getLast?_concat]) final

/-- There is room for a file that is level with all the files held. -/
theorem HoldsFiles.hasRoom {files : Place → Prop} (holds : HoldsFiles fs d files)
    (self : fs.at? d = some .directory) (plain : ∀ r target, fs.at? (d ++ r) ≠ some (.link target))
    (below : d <+: t) (level : ∀ q, files q → Place.Level q t) : fs.HasRoom t where
  above q above other := by
    rcases List.prefix_or_prefix_of_prefix above below with higher | inside
    · exact Passable.of_directory self q higher
    · cases there : fs.at? q with
      | none => exact .inl rfl
      | some entry =>
          cases entry with
          | directory => exact .inr rfl
          | link target =>
              obtain ⟨r, rfl⟩ := inside
              exact absurd there (plain r target)
          | file content =>
              exact absurd ((level q ((holds.file_iff q inside).1 ⟨content, there⟩)).1 above) other
  free := by
    cases there : fs.at? t with
    | none => exact .inl rfl
    | some entry =>
        cases entry with
        | file content => exact .inr ⟨content, rfl⟩
        | link target =>
            obtain ⟨r, rfl⟩ := below
            exact absurd there (plain r target)
        | directory =>
            obtain ⟨q, held, above, other⟩ := holds.directory t below there
            exact absurd ((level q held).2 above).symm other

namespace Config.Feasible

variable (h : c.Feasible start S W)

include h

theorem inward_outDir : Path.Inward (Utf8.encode c.outDir) :=
  h.sound.outDir.inward h.site.noZero.1 h.outDir_named h.unobstructed.outDir

theorem inward_stagingDir : Path.Inward (Utf8.encode c.stagingDirName) :=
  h.sound.stagingDir.inward h.site.noZero.2.1 h.stagingDir_named h.unobstructed.stagingDir

theorem points_destination : start.Points c.destination (W ++ namesOf c.outDir) := by
  unfold Config.destination Config.layout
  rw [encode_joinText]
  exact h.site.working.points_join h.site.working_directory h.inward_outDir

theorem points_staging :
    start.Points c.staging (W ++ namesOf c.outDir ++ namesOf c.stagingDirName) := by
  rw [c.staging_eq]
  exact h.points_destination.join h.inward_stagingDir

/-! ## Preparing -/

theorem prepare_done (same : w.files = start) : ∃ w', prepare c w = .ok () w' := by
  subst same
  obtain ⟨w₀, logged, same⟩ := Work.log_ok .debug s!"rebuilding {c.layout.destinationRoot}" w
  have points := h.points_destination
  have missing := h.missing_destination
  have passable := h.site.passable (namesOf c.outDir)
  have anchored := h.anchored
  have untouched := h.cleared_eq
  have steady : w.files.Steady c.destination := h.steady_destination
  rw [← same] at points missing passable steady untouched anchored
  have unbounded : w₀.files.Unbounded := by
    rw [same]
    exact h.site.unbounded
  obtain ⟨w₁, made⟩ := recreateDir_done points (unbounded.takes _) steady passable missing
  obtain ⟨d, outer⟩ := recreateDir_ok made h.sound.destination_ne_nil (anchored.steady h.sound)
  rw [show w₀.files.without (Utf8.encode c.layout.destinationRoot) = w₀.files from
    untouched] at outer
  have within := outer.raised.toWithin
  -- The staging directory comes into an empty directory.
  have inward := h.inward_stagingDir
  have points₁ : w₁.files.Points c.staging (d ++ namesOf c.stagingDirName) := by
    rw [c.staging_eq]
    exact outer.arrives.points_join outer.at?_self inward
  have steady₁ : w₁.files.Steady c.staging := (steady.of_within within).joinText h.sound.stagingDir
  have passable₁ : w₁.files.Passable (d ++ namesOf c.stagingDirName) :=
    .of_empty outer.at?_self (fun n => outer.at?_below n []) _
  have missing₁ : w₁.files.at? (d ++ namesOf c.stagingDirName) = none := by
    obtain ⟨n, r, split⟩ := List.exists_cons_of_ne_nil h.stagingDir_named
    rw [split]
    exact outer.at?_below n r
  obtain ⟨w₂, tried⟩ :=
    prepareStaging_done points₁ (unbounded.of_within within) steady₁ passable₁ missing₁
  exact ⟨w₂, bind_eq_ok.2 ⟨(), w₀, logged, bind_eq_ok.2 ⟨(), w₁, made, tried⟩⟩⟩

/-! ## Filling -/

/-- A file of the source root can be put where there is room for it. -/
theorem deliverable (grown : start.Grows gs) (inner : names ≠ [])
    (spelled : Utf8.encode path = names.relativePath)
    (file : ∃ content, start.at? (S ++ names) = some (.file content)) {base more : String}
    (steady : start.Steady (Utf8.encode base)) (some_ : namesOf more ≠ [])
    (spelled' : Utf8.encode more = (namesOf more).relativePath)
    (points : start.Points (Utf8.encode (joinText base more)) t) (room : gs.HasRoom t) :
    Deliverable gs (joinText c.sourceRoot path) (joinText base more) t where
  starts := (h.site.starts _).of_within grown.toWithin
  steady := by
    refine (steady.joinText ?_).of_within grown.toWithin
    rw [spelled']
    exact Path.descends_relativePath _
  reads := h.site.reads grown inner spelled file
  points := points.of_within grown.toWithin (h.site.starts _)
  takes := (h.site.unbounded.of_within grown.toWithin).takes _
  noSlash := by
    rw [encode_joinText, spelled']
    exact Path.endsInSlash_join_relativePath _ some_
  room := room

theorem points_staged {more : String} (some_ : namesOf more ≠ [])
    (spelled : Utf8.encode more = (namesOf more).relativePath) :
    start.Points (Utf8.encode (joinText c.layout.stagingDir more))
      (W ++ (namesOf c.outDir ++ namesOf c.stagingDirName ++ namesOf more)) := by
  rw [encode_joinText, ← List.append_assoc, ← List.append_assoc]
  refine h.points_staging.join ?_
  rw [spelled]
  exact Path.inward_relativePath some_

/-- A staged file is level with a file for the working directory. -/
theorem level_working (there : f ∈ c.auxFiles) (placed : f.placement = .workingDir)
    (there' : g ∈ c.auxFiles) (placed' : g.placement = .staged) :
    Place.Level (namesOf f.target)
    (namesOf c.outDir ++ namesOf c.stagingDirName ++ namesOf g.target) := by
  obtain ⟨single, other⟩ :=
    (defaultManifest_level f (h.manifest ▸ there) placed g (h.manifest ▸ there')).2 placed'
  obtain ⟨n, only⟩ := List.length_eq_one_iff.1 single
  rw [only] at other ⊢
  constructor
  · intro above
    exact (List.prefix_concat_iff.1 above).resolve_right (h.unobstructed.working f there placed)
  · intro below
    exact absurd (below.subset (by simp)) (other n (by simp))

/-- The files of the manifest are level with each other, -/
theorem level_manifest (there : f ∈ c.auxFiles) (there' : g ∈ c.auxFiles) :
    Place.Level (c.targetNames f) (c.targetNames g) := by
  unfold Config.targetNames
  cases placed : f.placement with
  | staged =>
      cases placed' : g.placement with
      | staged =>
          obtain rfl :=
            defaultManifest_staged f (h.manifest ▸ there) placed g (h.manifest ▸ there') placed'
          exact ⟨fun _ => rfl, fun _ => rfl⟩
      | workingDir => exact (h.level_working there' placed' there placed).symm
  | workingDir =>
      cases placed' : g.placement with
      | staged => exact h.level_working there placed there' placed'
      | workingDir =>
          exact (defaultManifest_level f (h.manifest ▸ there) placed g (h.manifest ▸ there')).1
            placed'

/-- and with every class file. -/
theorem level_class (shown : Shows start c.sourceRoot ".class" path (namesOf path))
    (there : f ∈ c.auxFiles) : Place.Level (namesOf c.outDir ++ namesOf c.stagingDirName ++
      namesOf path) (c.targetNames f) := by
  unfold Config.targetNames
  cases placed : f.placement with
  | staged =>
      have own := h.site.files f there
      rw [← (defaultManifest_spelled (h.manifest ▸ there)).1] at own
      exact (Site.level (h.site.file_of_shows shown) own).append _
  | workingDir =>
      refine ⟨fun above => ?_, fun below => absurd below
        (h.unobstructed.classes path shown f there placed)⟩
      -- No file of the manifest goes through a directory that is named like a class file.
      obtain ⟨n, member, suffix⟩ := shown.ending.exists_suffix
      have inside : n ∈ namesOf f.target := above.subset (by simp [member])
      exact absurd suffix (defaultManifest_names (h.manifest ▸ there) placed n inside).1

section Prepared

variable (prepared : c.Prepared start mid fs d st)

include prepared

/-- What is staged is put strictly below the staging directory. -/
theorem not_above_staging (inner : names ≠ []) :
    ¬ W ++ (namesOf c.outDir ++ namesOf c.stagingDirName ++ names) <+: st := by
  rw [h.place_staging prepared, List.prefix_append_right_inj]
  intro above
  have shorter := above.length_le
  have := List.length_pos_iff.2 inner
  simp only [List.length_append] at shorter
  omega

/-- In the working directory there is room for every file, but where the staging directory or one
above it is. -/
theorem hasRoom {r : Place} (aside : ¬ W ++ r <+: st) : fs.HasRoom (W ++ r) where
  above q above _ := by
    rw [h.at?_prepared prepared]
    split
    · exact .inr rfl
    · exact h.site.passable r q above
  free := by
    rw [h.at?_prepared prepared, if_neg aside]
    rcases h.site.passable r _ (List.prefix_refl _) with missing | directory
    · exact .inl missing
    · -- The working directory itself is above the staging directory.
      cases r with
      | nil =>
          rw [h.place_staging prepared] at aside
          exact absurd (by simp) aside
      | cons n r => exact .inl (h.site.at?_below n r)

/-- Once both directories are made, every file of the manifest can be put where it goes. -/
theorem manifest_ready (there : f ∈ c.auxFiles) :
    Deliverable fs (joinText c.sourceRoot f.source) (f.destination c.layout.stagingDir c.workingDir)
      (W ++ c.targetNames f) := by
  obtain ⟨same, some_, spelled, _⟩ := defaultManifest_spelled (h.manifest ▸ there)
  have grown := h.grows prepared prepared.grows
  have file := h.site.files f there
  unfold AuxFile.destination Config.targetNames
  rw [same]
  cases placed : f.placement with
  | staged =>
      exact h.deliverable grown some_ spelled file h.steady_staging some_ spelled
        (h.points_staged some_ spelled) (h.hasRoom prepared (h.not_above_staging prepared some_))
  | workingDir =>
      have points : start.Points (Utf8.encode (joinText c.workingDir f.source))
          (W ++ namesOf f.source) := by
        rw [encode_joinText]
        exact h.site.working.points_join h.site.working_directory
          (spelled ▸ Path.inward_relativePath some_)
      have aside := h.unobstructed.working f there placed
      rw [same] at aside
      refine h.deliverable grown some_ spelled file h.site.steady_working some_ spelled points
        (h.hasRoom prepared ?_)
      rwa [h.place_staging prepared, List.prefix_append_right_inj]

end Prepared

theorem fillStaging_done (prepared : c.Prepared start mid w.files d st) :
    ∃ found w', fillStaging c w = .ok found w' := by
  have grown := h.grows prepared prepared.grows
  have same := h.at?_source prepared
  obtain ⟨classes, w₁, search⟩ :=
    h.site.search_done grown same rfl ArtifactPattern.compile_classFiles
  have shown : ∀ path ∈ classes,
      Shows start c.sourceRoot ".class" path (namesOf path) := fun path there =>
    (h.mem_classes_iff grown same search).1 there
  -- The class files.
  obtain ⟨w₂, collected⟩ := collect_done
    (fun path => W ++ (namesOf c.outDir ++ namesOf c.stagingDirName ++ namesOf path)) search
    (fun path there => by
      have inner := (shown path there).names_ne_nil
      have spelled := (shown path there).spelled
      exact h.deliverable grown inner spelled (h.site.file_of_shows (shown path there))
        h.steady_staging inner spelled (h.points_staged inner spelled)
        (h.hasRoom prepared (h.not_above_staging prepared inner)))
    fun a ha b hb =>
      ((Site.level (h.site.file_of_shows (shown a ha)) (h.site.file_of_shows (shown b hb))).append
        _).append _
  obtain ⟨_, ds, _, copies, _, all⟩ :=
    collect_copies (t := st) collected ((h.site.starts _).of_within grown.toWithin)
    (h.steady_staging.of_within grown.toWithin) (prepared.leads_staging prepared.grows)
    (prepared.plain_staging prepared.grows)
  -- The files of the manifest.
  obtain ⟨w₃, copied⟩ := copyAuxFiles_done (fun f => W ++ c.targetNames f)
    (fun f there => (h.manifest_ready prepared there).of_copies copies fun e member => by
      obtain ⟨path, found, copy⟩ := all e member
      obtain ⟨names, spelled, place⟩ := copy.place
      obtain rfl := namesOf_eq spelled
      rw [place, h.place_staging prepared, List.append_assoc]
      exact (h.level_class (shown path found) there).append W)
    fun f hf g hg => (h.level_manifest hf hg).append W
  exact ⟨_, w₃, bind_eq_ok.2 ⟨classes, w₂, collected,
    bind_eq_ok.2 ⟨_, w₃, copyAuxFiles_eq_ok.2 ⟨copied, rfl⟩, rfl⟩⟩⟩

/-! ## Packing and cleaning up -/

section Prepared

variable (prepared : c.Prepared start mid fs d st)

include prepared

/-- The archive is not at the staging directory or below it. -/
theorem archive_aside (named : Name.ofBytes? (Utf8.encode c.layout.archiveName) = some n) :
    ¬ st <+: d ++ [n] := by
  obtain ⟨single, _⟩ := h.archive_named named
  rw [prepared.place, List.prefix_append_right_inj]
  intro above
  rcases List.prefix_concat_iff.1 (by simpa using above : _ <+: [] ++ [n]) with here | higher
  · exact h.unobstructed.archive (by rw [single]; exact here)
  · exact prepared.named (List.prefix_nil.1 higher)

/-- Nothing but a file can be at the archive when everything is staged. -/
theorem archive_free (copies : Copies ds fs gs)
    (texts : ds.map (fun d => (d.source, d.target)) = c.copyTexts classes)
    (found : ∀ path ∈ classes, Path.Descends (Utf8.encode path))
    (named : Name.ofBytes? (Utf8.encode c.layout.archiveName) = some n) :
    gs.at? (d ++ [n]) = none ∨ ∃ content, gs.at? (d ++ [n]) = some (.file content) := by
  have aside := h.archive_aside prepared named
  have grown := prepared.grows.trans copies.grows
  obtain ⟨_, filled⟩ := prepared.at?_of_filled copies texts found
  obtain ⟨_, directories⟩ := filled _ (List.prefix_append ..) aside
  cases there : gs.at? (d ++ [n]) with
  | none => exact .inl rfl
  | some entry =>
      cases entry with
      | file content => exact .inr ⟨content, rfl⟩
      | link target => exact absurd there (prepared.plain grown [n] target)
      | directory =>
          exfalso
          rcases directories there with above | ⟨t, sent, _, above, _⟩
          · -- The staging directory is right below the output directory, as the archive is.
            have other : d ++ [n] ≠ st := fun same => aside (same ▸ List.prefix_refl _)
            have top := prepared.eq_of_above_staging h.accepted (List.prefix_append ..) above other
            simp at top
          · -- No file of the manifest goes through a directory that starts with a `b`.
            obtain ⟨f, member, placed, rfl⟩ := h.place_of_sentTo (h.grows prepared grown) sent
            rw [h.place_destination prepared, List.append_assoc,
              List.prefix_append_right_inj] at above
            have inside : n ∈ namesOf f.target := above.subset (by simp)
            exact (defaultManifest_names (h.manifest ▸ member) placed n inside).2.2
              (h.archive_named named).2.2

/-- All names below the staging directory are texts. -/
theorem texts_staged (tree : StagedTree c classes ds st gs) (grown : start.Grows gs)
    (shown : ∀ path ∈ classes, Shows start c.sourceRoot ".class" path (namesOf path))
    (there : gs.at? (st ++ names) ≠ none) : ∀ n ∈ names, n.text?.isSome = true := by
  cases names with
  | nil => simp
  | cons n r =>
      obtain ⟨e, member, above⟩ : ∃ e ∈ ds, st ++ n :: r <+: e.place := by
        rw [tree.below] at there
        cases last : lastAt? (ds.map fun d => (d.place, d.content)) (st ++ n :: r) with
        | some content =>
            obtain ⟨e, member, same⟩ := List.mem_map.1 (mem_of_lastAt? last)
            exact ⟨e, member, (Prod.mk.inj same).1 ▸ List.prefix_refl _⟩
        | none => simpa [last] using there
      have listed : (e.source, e.target) ∈ c.copyTexts classes :=
        tree.texts ▸ List.mem_map_of_mem member
      intro m inside
      rcases mem_copyTexts listed with ⟨path, found, _, target⟩ | ⟨f, there, _, target⟩
      · have spelled := (shown path found).spelled
        rw [tree.place e member path (descends_of_relative ⟨_, spelled⟩) target,
          List.prefix_append_right_inj] at above
        exact Place.text?_of_encode spelled m (above.subset inside)
      · obtain ⟨same, _, _, texts⟩ := defaultManifest_spelled (h.manifest ▸ there)
        rw [← same] at texts
        refine texts m ?_
        cases placed : f.placement with
        | staged =>
            simp only [AuxFile.destination, placed] at target
            rw [tree.place e member f.target (h.sound.target f there) target,
              List.prefix_append_right_inj] at above
            exact above.subset inside
        | workingDir =>
            simp only [AuxFile.destination, placed] at target
            have leads := grown.leadsTo_iff.1 (tree.arrives e member).leads
            rw [target] at leads
            rw [h.site.place_of_leadsTo (h.sound.target f there) leads, h.place_staging prepared,
              List.append_assoc, List.prefix_append_right_inj] at above
            exact above.subset (List.mem_append_right _ inside)

theorem pack_done (copies : Copies ds fs w.files) (tree : StagedTree c classes ds st w.files)
    (shown : ∀ path, path ∈ classes ↔ Shows start c.sourceRoot ".class" path (namesOf path))
    (same : ∀ r, w.files.at? (S ++ r) = start.at? (S ++ r)) :
    ∃ w', zipArchiver.pack c.layout.stagingDir c.layout.archivePath w = .ok () w' := by
  obtain ⟨n, named⟩ := h.exists_archive_name
  obtain ⟨one, bytes, _⟩ := h.archive_named named
  have found : ∀ path ∈ classes, Path.Descends (Utf8.encode path) := fun path there =>
    descends_of_relative ⟨_, ((shown path).1 there).spelled⟩
  have grown := prepared.grows.trans copies.grows
  have grown' := h.grows prepared grown
  have inward : Path.Inward (Utf8.encode c.layout.archiveName) :=
    { toDescends := h.sound.archive, noZero := h.site.noZero.2.2
      ends := ⟨[], n, by rw [h.sound.archive_segments, named]; rfl⟩ }
  have points : w.files.Points c.archive (d ++ [n]) := by
    rw [c.archive_eq, ← one]
    exact (prepared.arrives grown).points_join (prepared.there grown) inward
  have noSlash : Path.endsInSlash (Utf8.encode c.layout.archivePath) = false := by
    have single : n.bytes = Place.relativePath [n] := rfl
    rw [show Utf8.encode c.layout.archivePath = _ from c.archive_eq,
      Path.endsInSlash_join inward.relative inward.ne_nil,
      bytes, single, Path.endsInSlash_relativePath]
  exact zipArchiver_done (h.site.unbounded.of_within grown'.toWithin) points noSlash
    (prepared.there grown) (h.archive_free prepared copies tree.texts found named)
    (h.steady_staging.of_within grown'.toWithin).starts
    tree.staging tree.self (h.archive_aside prepared named)
    (fun names there => h.texts_staged prepared tree grown'
      (fun path found => (shown path).1 found) there)
    fun names content file => by
      rw [grown'.limits]
      exact h.fits names content (h.stagesFile_of_file prepared grown' tree same shown file)

theorem cleanup_done (grown : mid.Grows w.files) (directory : w.files.at? st = some .directory) :
    ∃ w', cleanupStaging c.layout.stagingDir w = .ok () w' := by
  have pointing : ∀ {gs}, mid.Grows gs → gs.Points c.staging st := fun {gs} grown => by
    have points :=
      h.points_staging.of_within (h.grows prepared grown).toWithin h.steady_staging.starts
    rwa [List.append_assoc, ← h.place_staging prepared] at points
  -- Emptied, the staging directory is still below the output directory.
  have emptied : mid.Grows (w.files.clear st) := by
    refine prepared.grows_of_below grown rfl rfl fun q => ?_
    rw [at?_clear]
    split
    · rename_i below
      obtain ⟨n, r, split⟩ := List.exists_cons_of_ne_nil prepared.named
      obtain ⟨r', rfl⟩ := below.2
      exact .inr ⟨⟨n, r ++ r', by simp [prepared.place, split]⟩, by simp⟩
    · exact .inl rfl
  obtain ⟨gs, removed⟩ := (pointing grown).removeTreeIfThere_directory (pointing emptied)
    ((h.site.unbounded.of_within (h.grows prepared grown).toWithin).takes _) directory
  exact ⟨_, Work.files_of_ok removed⟩

/-! ## Copying the jars -/

/-- When the staging directory is gone, what is left in the output directory is level with every
jar. -/
theorem level_jar (grown' : start.Grows gs)
    (named : Name.ofBytes? (Utf8.encode c.layout.archiveName) = some n)
    (shown : Shows start c.sourceRoot ".jar" path (namesOf path))
    (outside : ¬ (namesOf path).GoesThrough "jre") (outside' : ¬ (namesOf path).GoesThrough "jre64")
    (held : q = d ++ [n] ∨ c.SentTo gs q ∧ ¬ st <+: q) : Place.Level q (d ++ namesOf path) := by
  obtain ⟨notArchive, notSent⟩ := h.unobstructed.jars path shown outside outside'
  rcases held with rfl | ⟨sent, left⟩
  · refine Place.Level.append ⟨fun above => ?_, fun above => ?_⟩ d
    · -- The jar would go through a directory that is named like the archive.
      obtain ⟨r, split⟩ := above
      by_contra other
      refine notArchive ⟨n, r, split.symm, ?_, (h.archive_named named).2.1.symm⟩
      rintro rfl
      exact other split
    · rcases List.prefix_concat_iff.1 (by simpa using above : _ <+: [] ++ [n]) with here | higher
      · exact here.symm
      · exact absurd (List.prefix_nil.1 higher) shown.names_ne_nil
  · obtain ⟨f, member, placed, rfl⟩ := h.place_of_sentTo grown' sent
    rw [h.place_staging prepared, List.prefix_append_right_inj] at left
    rw [h.place_destination prepared, List.append_assoc]
    refine Place.Level.append ⟨fun above => absurd above
      (notSent f member placed left), fun above => ?_⟩ W
    -- No file of the manifest goes through a directory that is named like a jar.
    obtain ⟨m, inside, suffix⟩ := shown.ending.exists_suffix
    exact absurd suffix (defaultManifest_names (h.manifest ▸ member) placed m
      (above.subset (by simp [inside]))).2.1

/-- So there is room for every jar. -/
theorem hasRoom_jar (grown : mid.Grows hs) (grown' : start.Grows gs)
    (named : Name.ofBytes? (Utf8.encode c.layout.archiveName) = some n)
    (holds : HoldsFiles hs d fun q => q = d ++ [n] ∨ c.SentTo gs q ∧ ¬ st <+: q)
    (shown : Shows start c.sourceRoot ".jar" path (namesOf path))
    (outside : ¬ (namesOf path).GoesThrough "jre")
    (outside' : ¬ (namesOf path).GoesThrough "jre64") : hs.HasRoom (d ++ namesOf path) :=
  holds.hasRoom (prepared.there grown) (prepared.plain grown) (List.prefix_append ..) fun _ held =>
    h.level_jar prepared grown' named shown outside outside' held

theorem jars_done (grown : mid.Grows w.files) (grown' : start.Grows gs)
    (named : Name.ofBytes? (Utf8.encode c.layout.archiveName) = some n)
    (holds : HoldsFiles w.files d fun q => q = d ++ [n] ∨ c.SentTo gs q ∧ ¬ st <+: q)
    (same : ∀ r, w.files.at? (S ++ r) = start.at? (S ++ r)) :
    ∃ jars w', collect c.sourceRoot .prebuiltArchives c.layout.destinationRoot w = .ok jars w' := by
  have grows := h.grows prepared grown
  obtain ⟨jars, w₁, search⟩ :=
    h.site.search_done grows same rfl ArtifactPattern.compile_prebuiltArchives
  have found := fun path (there : path ∈ jars) => (h.mem_jars_iff grows same search).1 there
  obtain ⟨w', collected⟩ := collect_done (fun path => d ++ namesOf path) search
    (fun path there => by
      obtain ⟨shown, outside, outside'⟩ := found path there
      have inward := Path.inward_relativePath shown.names_ne_nil
      have points := h.points_destination.join (shown.spelled ▸ inward)
      rw [← h.place_destination prepared] at points
      exact h.deliverable grows shown.names_ne_nil shown.spelled
        (h.site.file_of_shows shown) h.steady_destination shown.names_ne_nil shown.spelled
          (encode_joinText .. ▸ points)
        (h.hasRoom_jar prepared grown grown' named holds shown outside outside'))
    fun a ha b hb =>
      (Site.level (h.site.file_of_shows (found a ha).1)
        (h.site.file_of_shows (found b hb).1)).append d
  exact ⟨jars, w', collected⟩

end Prepared

/-! ## All steps -/

theorem stages_done (same : w.files = start) :
    ∃ classes jars report w₁ w₂ w₃ w₄, c.Stages zipArchiver w classes jars report w₁ w₂ w₃ w₄ := by
  subst same
  obtain ⟨w₀, made⟩ := h.prepare_done rfl
  obtain ⟨mid, d, st, prepared⟩ := prepare_ok made h.sound h.anchored
  obtain ⟨⟨classes, report⟩, w₁, fill⟩ := h.fillStaging_done prepared
  obtain ⟨ds, copies, tree, shown, reached⟩ := h.staged prepared fill
  have grown₁ : mid.Grows w₁.files := prepared.grows.trans copies.grows
  obtain ⟨w₂, packed⟩ := h.pack_done prepared copies tree shown (h.at?_of_reached reached)
  obtain ⟨grows₂, _⟩ := prepared.packed_ok grown₁ packed
  obtain ⟨w₃, cleaned⟩ := h.cleanup_done prepared (grown₁.trans grows₂) (grows₂.directory tree.self)
  obtain ⟨n, named, _, grown₃, holds, reached₃⟩ :=
    prepared.left_of_cleaned h.accepted h.clear copies tree
    (fun path there => descends_of_relative ⟨_, ((shown path).1 there).spelled⟩) reached
      packed cleaned
  obtain ⟨jars, w₄, collected⟩ :=
    h.jars_done prepared grown₃ (h.grows prepared grown₁) named holds (h.at?_of_reached reached₃)
  exact ⟨classes, jars, report, w₁, w₂, w₃, w₄, ⟨h.accepted, w₀, made, fill⟩, packed,
    cleaned, collected⟩

end Config.Feasible

/-! ## Names that are in each other's way -/

/-- A text joined to another ends as it does. -/
theorem Path.getLast?_segments_join {base more : Path} (relative : more.isAbsolute = false)
    (named : Segment.names more.segments ≠ []) :
    (base.join more).segments.getLast? = more.segments.getLast? := by
  have some_ : more.segments ≠ [] := by
    rintro none_
    simp [none_] at named
  rw [Path.segments_join relative, List.getLast?_append_of_ne_nil _ some_]

/-- A directory made anew where there was nothing is not written with a final dot. -/
theorem last_ne_here_of_recreateDir {base more : String}
    (made : recreateDir (joinText base more) w = .ok () w')
    (untouched : w.files.without (Utf8.encode (joinText base more)) = w.files)
    (steady : w.files.Steady (Utf8.encode (joinText base more)))
    (descends : Path.Descends (Utf8.encode more)) (named : namesOf more ≠ [])
    (noZero : 0 ∉ Utf8.encode (joinText base more)) :
    (Path.segments (Utf8.encode more)).getLast? ≠ some .here := by
  have steps : Path.segments (Utf8.encode (joinText base more)) =
      Path.segments (Utf8.encode base) ++ Path.segments (Utf8.encode more) := by
    rw [encode_joinText, Path.segments_join descends.relative]
  have named' : namesOf (joinText base more) ≠ [] := by
    unfold namesOf
    rw [steps]
    simp [Segment.names_append, named]
  have some_ : Utf8.encode (joinText base more) ≠ [] := by
    intro none_
    simp [namesOf, none_] at named'
  obtain ⟨d, rebuilt⟩ := recreateDir_ok made some_ (untouched.symm ▸ steady)
  rw [untouched] at rebuilt
  unfold recreateDir removeDir at made
  obtain ⟨_, w₁, removed, made⟩ := bind_eq_ok.1 made
  have same : w₁.files = w.files := by
    rwa [without, Work.files_eq_ok removed, leftBy_ok] at untouched
  have final := last_ne_here_of_createDirs noZero named' steady rebuilt.leads rebuilt.missing
    (same ▸ Work.files_eq_ok made)
  rwa [encode_joinText, Path.getLast?_segments_join descends.relative named] at final

namespace Config.AtSite

variable (h : c.AtSite start S W)

include h

/-- A run gets beyond its first step only with directories that are not written with a final dot. -/
theorem last_ne_here_of_prepare (same : w.files = start) (made : prepare c w = .ok () w') :
    (Path.segments (Utf8.encode c.outDir)).getLast? ≠ some .here ∧
      (Path.segments (Utf8.encode c.stagingDirName)).getLast? ≠ some .here := by
  subst same
  unfold prepare at made
  obtain ⟨_, w₀, logged, made⟩ := bind_eq_ok.1 made
  obtain ⟨_, w₁, first, second⟩ := bind_eq_ok.1 made
  have same := Work.files_of_log logged
  have untouched : w₀.files.without c.destination = w₀.files := by
    rw [same]
    exact h.cleared_eq
  have steady : w₀.files.Steady c.destination := by
    rw [same]
    exact h.steady_destination
  have noZero : 0 ∉ c.destination := by
    unfold Config.destination Config.layout
    rw [encode_joinText]
    exact Path.zero_not_mem_join h.site.zero_not_mem_working h.site.noZero.1
  refine ⟨last_ne_here_of_recreateDir first untouched steady h.sound.outDir h.outDir_named noZero,
    ?_⟩
  obtain ⟨d, outer⟩ := recreateDir_ok first h.sound.destination_ne_nil (untouched.symm ▸ steady)
  have outer : Rebuilt c.destination d w₀.files w₁.files := untouched ▸ outer
  unfold prepareStaging at second
  obtain ⟨_, w₂, inner, _⟩ := bind_eq_ok.1 second
  refine last_ne_here_of_recreateDir inner (without_staging outer h.sound)
    ((steady.of_within outer.raised.toWithin).joinText h.sound.stagingDir) h.sound.stagingDir
      h.stagingDir_named ?_
  rw [encode_joinText]
  exact Path.zero_not_mem_join noZero h.site.noZero.2.1

section Staged

variable (prepared : c.Prepared start mid fs d st) (copies : Copies ds fs gs)
  (tree : StagedTree c classes ds st gs)
  (shown : ∀ path, path ∈ classes ↔ Shows start c.sourceRoot ".class" path (namesOf path))
  (there : f ∈ c.auxFiles) (placed : f.placement = .workingDir)

include prepared copies tree shown there placed

/-- A file for the working directory was put where it goes, -/
theorem sent_file : ∃ content, gs.at? (W ++ namesOf f.target) = some (.file content) := by
  have grown := h.grows prepared (prepared.grows.trans copies.grows)
  obtain ⟨sent, _⟩ := prepared.at?_of_filled copies tree.texts fun path found =>
    descends_of_relative ⟨_, ((shown path).1 found).spelled⟩
  exact sent _ (h.sentTo grown there placed)

/-- so it was not above the staging directory -/
theorem not_above_of_staged :
    ¬ namesOf f.target <+: namesOf c.outDir ++ namesOf c.stagingDirName := by
  intro above
  obtain ⟨content, file⟩ := h.sent_file prepared copies tree shown there placed
  rw [← List.prefix_append_right_inj W, ← h.place_staging prepared] at above
  rw [eq_of_file_above file (by simp [tree.self]) above, tree.self] at file
  cases file

/-- or above a staged class file. -/
theorem not_above_class (found : Shows start c.sourceRoot ".class" path (namesOf path)) :
    ¬ namesOf f.target <+: namesOf c.outDir ++ namesOf c.stagingDirName ++ namesOf path := by
  intro above
  obtain ⟨content, file⟩ := h.sent_file prepared copies tree shown there placed
  have listed : (Utf8.encode (joinText c.sourceRoot path),
      Utf8.encode (joinText c.layout.stagingDir path)) ∈
      c.copyTexts classes := List.mem_append_left _ (List.mem_map_of_mem ((shown path).2 found))
  obtain ⟨e, member, same⟩ := List.mem_map.1 (tree.texts ▸ listed)
  have place :=
    tree.place e member path (descends_of_relative ⟨_, found.spelled⟩) (Prod.mk.inj same).2
  obtain ⟨content', last⟩ :=
    lastAt?_of_mem (List.mem_map_of_mem (f := fun e => (e.place, e.content)) member)
  have stands : gs.at? (W ++ (namesOf c.outDir ++ namesOf c.stagingDirName ++ namesOf path)) ≠
      none := by
    rw [← List.append_assoc, ← h.place_staging prepared, ← place, copies.at?_eq, last]
    simp
  have same := eq_of_file_above file stands ((List.prefix_append_right_inj W).2 above)
  obtain ⟨m, inside, suffix⟩ := found.ending.exists_suffix
  refine (defaultManifest_names (h.manifest ▸ there) placed m ?_).1 suffix
  rw [List.append_cancel_left same]
  exact List.mem_append_right _ inside

end Staged

/-- A run that copies all jars has left the way to them free. -/
theorem not_above_jar (prepared : c.Prepared start mid fs d st) (copies : Copies ds fs gs)
    (grown : mid.Grows w.files) (named : Name.ofBytes? (Utf8.encode c.layout.archiveName) = some n)
    (holds : HoldsFiles w.files d fun q => q = d ++ [n] ∨ c.SentTo gs q ∧ ¬ st <+: q)
    (same : ∀ r, w.files.at? (S ++ r) = start.at? (S ++ r))
    (above : ∀ f ∈ c.auxFiles, f.placement = .workingDir →
      ¬ namesOf f.target <+: namesOf c.outDir ++ namesOf c.stagingDirName)
    (collected : collect c.sourceRoot .prebuiltArchives c.layout.destinationRoot w = .ok jars w')
    (shown : Shows start c.sourceRoot ".jar" path (namesOf path))
    (outside : ¬ (namesOf path).GoesThrough "jre")
    (outside' : ¬ (namesOf path).GoesThrough "jre64") :
    ¬ (namesOf path).GoesThrough c.layout.archiveName ∧
      ∀ f ∈ c.auxFiles, f.placement = .workingDir →
      ¬ namesOf c.outDir ++ namesOf c.stagingDirName <+: namesOf f.target →
        ¬ namesOf f.target <+: namesOf c.outDir ++ namesOf path := by
  obtain ⟨_, jarCopies, search, copied, each, _⟩ := prepared.jars_ok grown collected
  have grown' := h.grows prepared (prepared.grows.trans copies.grows)
  have found := (h.mem_jars_iff (h.grows prepared grown) same search).2 ⟨shown, outside, outside'⟩
  obtain ⟨e, member, copy⟩ := each path found
  obtain ⟨names, spelled, place⟩ := copy.place
  obtain rfl := namesOf_eq spelled
  -- With the jars there, too, the files are where they were.
  have files := (holds.copies copied).file_iff
  have stands : w'.files.at? (d ++ namesOf path) ≠ none := by
    obtain ⟨content, file⟩ := (files _ (List.prefix_append ..)).2 (.inr ⟨e, member, place⟩)
    simp [file]
  constructor
  · rintro ⟨m, rest, split, more, bytes'⟩
    have bytes := (h.archive_named named).2.1
    obtain rfl : m = n := by
      cases m
      cases n
      simp_all
    obtain ⟨content, file⟩ := (files (d ++ [m]) (List.prefix_append ..)).2 (.inl (.inl rfl))
    have same := eq_of_file_above file stands (by simp [split])
    simp [split, more] at same
  · intro f there placed left higher
    have below : W ++ namesOf f.target <+: d ++ namesOf path := by
      rwa [h.place_destination prepared, List.append_assoc, List.prefix_append_right_inj]
    rcases List.prefix_or_prefix_of_prefix below (List.prefix_append d (namesOf path)) with
      top | inside
    · refine above f there placed ((List.prefix_append_right_inj W).1 ?_)
      rw [← h.place_staging prepared]
      exact top.trans prepared.below
    · have aside : ¬ st <+: W ++ namesOf f.target := by
        rwa [h.place_staging prepared, List.prefix_append_right_inj]
      obtain ⟨content, file⟩ :=
        (files _ inside).2 (.inl (.inr ⟨h.sentTo grown' there placed, aside⟩))
      have same := eq_of_file_above file stands below
      rw [h.place_destination prepared, List.append_assoc] at same
      obtain ⟨m, ends, suffix⟩ := shown.ending.exists_suffix
      refine (defaultManifest_names (h.manifest ▸ there) placed m ?_).2.1 suffix
      rw [List.append_cancel_left same]
      exact List.mem_append_right _ ends

/-- What is carried out is unobstructed. -/
theorem unobstructed_of_stages (same : w.files = start)
    (stages : c.Stages zipArchiver w classes jars report w₁ w₂ w₃ w₄) : c.Unobstructed start := by
  subst same
  obtain ⟨⟨_, w₀, made, fill⟩, packed, cleaned, collected⟩ := stages
  obtain ⟨outDir, stagingDir⟩ := h.last_ne_here_of_prepare rfl made
  obtain ⟨mid, d, st, prepared⟩ := prepare_ok made h.sound h.anchored
  obtain ⟨ds, copies, tree, shown, reached⟩ := h.staged prepared fill
  obtain ⟨n, named, aside, grown₃, holds, reached₃⟩ :=
    prepared.left_of_cleaned h.accepted h.clear copies tree
    (fun path there => descends_of_relative ⟨_, ((shown path).1 there).spelled⟩) reached
      packed cleaned
  obtain ⟨single, _⟩ := h.archive_named named
  have working : ∀ f ∈ c.auxFiles, f.placement = .workingDir →
      ¬ namesOf f.target <+: namesOf c.outDir ++ namesOf c.stagingDirName := fun f there placed =>
    h.not_above_of_staged prepared copies tree shown there placed
  have apart : namesOf c.stagingDirName ≠ namesOf c.layout.archiveName := fun same => by
    have here : st = d ++ [n] := by rw [prepared.place, ← single, ← same]
    exact aside (here ▸ List.prefix_refl st)
  exact ⟨outDir, stagingDir, apart, working,
    fun path found f there placed =>
      h.not_above_class prepared copies tree shown there placed found,
    fun path found =>
      h.not_above_jar prepared copies grown₃ named holds (h.at?_of_reached reached₃) working
        collected found⟩

/-- What is carried out fits the archive. -/
theorem fitsArchive_of_stages (same : w.files = start)
    (stages : c.Stages zipArchiver w classes jars report w₁ w₂ w₃ w₄) : c.FitsArchive start S := by
  subst same
  obtain ⟨⟨_, w₀, made, fill⟩, packed, _, _⟩ := stages
  obtain ⟨mid, d, st, prepared⟩ := prepare_ok made h.sound h.anchored
  obtain ⟨ds, copies, tree, shown, reached⟩ := h.staged prepared fill
  have grown := prepared.grows.trans copies.grows
  obtain ⟨_, _, _, sizes⟩ := prepared.zipArchiver_ok grown tree.staging tree.self packed
  intro names content staged
  rw [← (h.grows prepared grown).limits]
  exact sizes names content (h.file_of_stagesFile prepared (h.grows prepared grown) tree
    (h.at?_of_reached reached) shown staged)

end Config.AtSite

/-! ## The whole run -/

/-- At a site, an accepted configuration with the shipped manifest is carried out exactly if the
names chosen keep out of each other's way and the archive takes every file that it is made of. -/
theorem run_completes_iff (accepted : c.validate s.workshop.files = .ok ())
    (manifest : c.auxFiles = defaultManifest) (site : c.Site s.workshop.files S W) :
    (∃ summary s', run c zipArchiver elapsed s = .ok summary s') ↔
      c.Unobstructed s.workshop.files ∧ c.FitsArchive s.workshop.files S := by
  have h : c.AtSite s.workshop.files S W := ⟨accepted, manifest, site⟩
  constructor
  · rintro ⟨summary, s', done⟩
    obtain ⟨_, _, _, _, _, _, _, stages, _⟩ := run_stages done
    exact ⟨h.unobstructed_of_stages rfl stages, h.fitsArchive_of_stages rfl stages⟩
  · rintro ⟨unobstructed, fits⟩
    have feasible : c.Feasible s.workshop.files S W := ⟨h, unobstructed, fits⟩
    obtain ⟨_, _, _, _, _, _, _, stages⟩ := feasible.stages_done rfl
    obtain ⟨s', done, _⟩ : ∃ s', run c zipArchiver elapsed s = .ok _ s' ∧ _ := run_of_stages stages
    exact ⟨_, s', done⟩

/-- A game with all files of the usual manifest and perhaps more, beside an empty directory; names
and texts may be of any length. -/
def roomyGame (more : List (String × Entry)) : FileSystem :=
  ([("/pz", .directory), ("/pz/stdlib.lbc", holding "stdlib"),
    ("/pz/serialize.lua", holding "serialize"), ("/pz/media", .directory),
    ("/pz/media/lua", .directory), ("/pz/media/lua/shared", .directory),
    ("/pz/media/lua/shared/defines.lua", holding "defines"),
    ("/pz/media/lua/shared/Sandbox", .directory),
    ("/pz/media/lua/shared/Sandbox/Apocalypse.lua", holding "apocalypse"),
    ("/work", .directory)] ++ more).foldl
      (fun fs (text, e) => fs.plant text e) (empty { name := none, path := none })

/-- A game with a class file and a jar. -/
def packableGame : FileSystem :=
  roomyGame [("/pz/a.class", holding "class"), ("/pz/mods", .directory),
    ("/pz/mods/x.jar", holding "jar")]

theorem usualConfig_unobstructed : usualConfig.Unobstructed packableGame := by
  have classes : resultOf? (findMatches usualConfig.sourceRoot .classFiles ⟨packableGame, [], []⟩) =
      some ["a.class"] := by decide +kernel
  have jars : resultOf? (findMatches usualConfig.sourceRoot .prebuiltArchives
      ⟨packableGame, [], []⟩) = some ["mods/x.jar"] := by decide +kernel
  obtain ⟨_, classes⟩ := resultOf?_eq_some classes
  obtain ⟨_, jars⟩ := resultOf?_eq_some jars
  -- Nothing else is shown than what a search finds.
  refine ⟨by decide, by decide, by decide, by decide, fun path shown =>
    ?_, fun path shown outside outside' => ?_⟩
  · have there := (mem_findMatches_iff.1 classes path).2 ⟨_, shown⟩
    obtain rfl : path = "a.class" := by simpa using there
    decide
  · have there := (mem_findMatches_iff.2 jars path).2 ⟨_, shown, outside, outside'⟩
    obtain rfl : path = "mods/x.jar" := by simpa using there
    refine ⟨?_, by decide⟩
    rintro ⟨n, rest, split, _, bytes⟩
    have first : (namesOf "mods/x.jar").head?.map Name.bytes = some (Utf8.encode "b42.jar") := by
      rw [split]
      exact congrArg some bytes
    exact absurd first (by decide)

theorem run_completes_usual :
    usualConfig.LinklessSite packableGame (Path.spelled (Utf8.encode "/pz"))
      (Path.spelled (Utf8.encode "/work")) ∧
      ∃ summary s', run usualConfig zipArchiver 0 (.opening packableGame) = .ok summary s' := by
  have site : usualConfig.LinklessSite packableGame (Path.spelled (Utf8.encode "/pz"))
      (Path.spelled (Utf8.encode "/work")) := by decide
  have fits : usualConfig.FitsArchive packableGame (Path.spelled (Utf8.encode "/pz")) :=
    .of_below site.site.source_directory (by decide)
  exact ⟨site, (run_completes_iff (by decide) rfl site.site).2 ⟨usualConfig_unobstructed,
    fits⟩⟩

/-- A configuration beside that game. -/
def besideRoomyGame (outDir stagingDirName : String) : Config :=
  { usualConfig with outDir, stagingDirName }

/-- At a site the checks pass, and yet the run fails. -/
def Config.BreaksOff (c : Config) (fs : FileSystem) : Prop :=
  (∃ S W, c.AtSite fs S W) ∧ ∀ summary s', run c zipArchiver 0 (.opening fs) ≠ .ok summary s'

theorem Config.BreaksOff.of_computed (accepted : c.validate fs = .ok ())
    (manifest : c.auxFiles = defaultManifest) (site : c.LinklessSite fs S W)
    (failed : resultOf? (run c zipArchiver 0 (.opening fs)) = none) : c.BreaksOff fs := by
  refine ⟨⟨S, W, accepted, manifest, site.site⟩, fun summary s' done => ?_⟩
  simp [done, resultOf?] at failed

/-- The checks pass, and yet the run fails half-way at such a site: when

* the staging directory is named like the archive;
* a directory is written with a final dot;
* a file of the manifest would have to be put where a directory is;
* a jar would have to be put below the archive. -/
theorem accepted_run_breaks_off :
    (besideRoomyGame "lib" "b42.jar").BreaksOff (roomyGame []) ∧
      (besideRoomyGame "lib/." "zc").BreaksOff (roomyGame []) ∧
      (besideRoomyGame "serialize.lua" "zc").BreaksOff (roomyGame []) ∧
      (besideRoomyGame "lib" "zc").BreaksOff
        (roomyGame [("/pz/b42.jar", .directory), ("/pz/b42.jar/x.jar", holding "jar")]) := by
  have computed : ∀ {c fs}, c.validate fs = .ok () → c.auxFiles = defaultManifest →
      c.LinklessSite fs (Path.spelled (Utf8.encode "/pz")) (Path.spelled (Utf8.encode "/work")) →
      resultOf? (run c zipArchiver 0 (.opening fs)) = none → c.BreaksOff fs := .of_computed
  refine ⟨computed ?_ rfl ?_ ?_, computed ?_ rfl ?_ ?_, computed ?_ rfl ?_ ?_, computed ?_ rfl ?_
    ?_⟩ <;> decide +kernel

end ClassPack
