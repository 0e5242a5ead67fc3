import ClassPack.Proofs.Archiving
import ClassPack.Proofs.Preparing
import ClassPack.Proofs.Running

/-!
# Phases — what each step of a run changes, once both directories were made anew

From then on every state holds all that the one with the empty output directory had (`mid.Grows
fs`), and each step keeps it so:

* `fillStaging_fills` — files come to be below the staging directory, and where the working
  directory's entries of the manifest lead (`Config.Delivers`);
* `pack_phase` — the archive;
* `cleanup_phase` — what lies at and below the staging directory goes;
* `jars_phase` — files come to be below the output directory; `jars_ok`, which files;
* `finish_left` — after the filling all that changes lies below the output directory.
-/

namespace ClassPack

open FileSystem

variable {c : Config} {a : Archiver} {start mid fs gs hs : FileSystem} {d s q t : Place}
  {w w' : Workshop} {more : String}

/-- Where entries of the manifest go that are meant for the working directory, and are not
there already. -/
def Config.Delivers (c : Config) (start : FileSystem) (t : Place) : Prop :=
  ∃ f ∈ c.auxFiles, f.placement = .workingDir ∧
    isSameFile (c.cleared start) (joinText c.sourceRoot f.source) (joinText c.workingDir f.target) =
      false ∧ (c.cleared start).LeadsTo (Utf8.encode (joinText c.workingDir f.target)) t

theorem fillStaging_ok {classes : List String} {report : AuxReport}
    (h : fillStaging c w = .ok (classes, report) w') :
    ∃ w₁, collect c.sourceRoot .classFiles c.layout.stagingDir w = .ok classes w₁ ∧
      forM c.auxFiles (copyAuxFile c.sourceRoot c.layout.stagingDir c.workingDir) w₁ = .ok () w' ∧
        report = .ofManifest c.auxFiles := by
  unfold fillStaging at h
  obtain ⟨classes', w₁, found, h⟩ := bind_eq_ok.1 h
  obtain ⟨report', w₂, copied, last⟩ := bind_eq_ok.1 h
  cases last
  obtain ⟨all, counted⟩ := copyAuxFiles_eq_ok.1 copied
  exact ⟨w₁, found, all, counted⟩

namespace Config.Prepared

variable (h : c.Prepared start mid fs d s)

include h

section Later

variable (grown : mid.Grows gs)

include grown

theorem place_of_leadsTo (descends : Path.Descends (Utf8.encode more))
    (leads : gs.LeadsTo (Utf8.encode (joinText c.layout.destinationRoot more)) t) :
    t = d ++ Segment.names (Path.segments (Utf8.encode more)) :=
  leads.eq_of_join (h.leads grown) descends (h.plain grown)

theorem place_of_leadsTo_staging (descends : Path.Descends (Utf8.encode more))
    (leads : gs.LeadsTo (Utf8.encode (joinText c.layout.stagingDir more)) t) :
    t = s ++ Segment.names (Path.segments (Utf8.encode more)) :=
  leads.eq_of_join (h.leads_staging grown) descends (h.plain_staging grown)

theorem starts_source {f : AuxFile} (there : f ∈ c.auxFiles) :
    gs.Starts (Utf8.encode (joinText c.sourceRoot f.source)) :=
  (h.anchored.sourceRoot.of_within (h.bare_grows grown).toWithin).joinText (h.sound.source f there)

theorem steady_destination {f : AuxFile} (there : f ∈ c.auxFiles) :
    gs.Steady (Utf8.encode (f.destination c.layout.stagingDir c.workingDir)) := by
  unfold AuxFile.destination
  split
  · exact ((h.steady grown).joinText h.sound.stagingDir).joinText (h.sound.target f there)
  · exact (h.anchored.workingDir.of_within (h.bare_grows grown).toWithin).joinText
      (h.sound.target f there)

/-- What was known to be one file before both directories were made is still known to be. -/
theorem isSameFile_of_cleared {f : AuxFile} (there : f ∈ c.auxFiles)
    (same : isSameFile (c.cleared start) (joinText c.sourceRoot f.source)
      (joinText c.workingDir f.target) = true) :
    isSameFile gs (joinText c.sourceRoot f.source) (joinText c.workingDir f.target) = true :=
  isSameFile_of_within (h.bare_grows grown).toWithin
    (h.anchored.sourceRoot.joinText (h.sound.source f there))
    (h.anchored.workingDir.starts.joinText (h.sound.target f there)) same

theorem deposits_of_auxTargets
    (target : AuxTargets gs c.sourceRoot c.layout.stagingDir c.workingDir c.auxFiles t) :
    s <+: t ∨ c.Delivers start t := by
  obtain ⟨f, there, other, leads⟩ := target
  cases placed : f.placement with
  | staged =>
      simp only [AuxFile.destination, placed] at leads
      exact .inl (h.place_of_leadsTo_staging grown (h.sound.target f there) leads ▸
        List.prefix_append ..)
  | workingDir =>
      simp only [AuxFile.destination, placed] at leads other
      refine .inr ⟨f, there, placed, ?_, (h.bare_grows grown).leadsTo_iff.1 leads⟩
      by_contra same
      rw [h.isSameFile_of_cleared grown there (by simpa using same)] at other
      simp at other

end Later

/-! ## Filling -/

theorem fillStaging_fills (same : w.files = fs) :
    Fills (fun t => s <+: t ∨ c.Delivers start t) fs (leftBy (fillStaging c w)).files := by
  subst same
  have first : Fills (fun t => s <+: t ∨ c.Delivers start t) w.files
      (leftBy (collect c.sourceRoot .classFiles c.layout.stagingDir w)).files := by
    refine (collect_fills _ _ _ w ((h.steady h.grows).joinText h.sound.stagingDir)).mono ?_
    rintro t ⟨names, leads⟩
    have place := leads.unique
      ((h.leads_staging h.grows).join (Path.descends_relativePath names) (h.plain_staging h.grows))
    exact .inl (place ▸ List.prefix_append ..)
  unfold fillStaging
  cases found : collect c.sourceRoot .classFiles c.layout.stagingDir w with
  | error e w₁ =>
      rw [bind_of_error found]
      rwa [found] at first
  | ok classes w₁ =>
      rw [found, leftBy_ok] at first
      rw [bind_of_ok found]
      have grown := h.grows.trans first.toGrows
      have second : Fills (fun t => s <+: t ∨ c.Delivers start t) w₁.files
          (leftBy (forM c.auxFiles (copyAuxFile c.sourceRoot c.layout.stagingDir c.workingDir)
            w₁)).files :=
        (copyAuxFiles_fills c.auxFiles w₁ (fun f there => h.starts_source grown there)
          fun f there => h.steady_destination grown there).mono fun t =>
            h.deposits_of_auxTargets grown
      have all := first.trans second
      rw [copyAuxFiles_eq]
      cases copied : forM c.auxFiles
          (copyAuxFile c.sourceRoot c.layout.stagingDir c.workingDir) w₁ with
      | error e w₂ =>
          rw [copied] at all
          rw [bind_of_error (bind_of_error copied)]
          exact all
      | ok _ w₂ =>
          rw [copied] at all
          -- What is left to do only counts.
          have done : (forM c.auxFiles (copyAuxFile c.sourceRoot c.layout.stagingDir
              c.workingDir) >>= fun _ =>
              (pure (AuxReport.ofManifest c.auxFiles) : Work AuxReport)) w₁ = .ok _ w₂ :=
                bind_of_ok copied
          rw [bind_of_ok done]
          exact all

/-! ## Finishing -/

/-- Changes strictly below the output directory that make no links keep all that the empty one
had. -/
theorem grows_of_below (grown : mid.Grows gs) (workingDir : hs.workingDir = gs.workingDir)
    (limits : hs.limits = gs.limits)
    (below : ∀ q, hs.at? q = gs.at? q ∨
      (∃ n r, q = d ++ n :: r) ∧ ∀ target, hs.at? q ≠ some (.link target)) : mid.Grows hs where
  workingDir := workingDir.trans grown.workingDir
  limits := limits.trans grown.limits
  directory {q} there := by
    rcases below q with same | ⟨⟨n, r, rfl⟩, _⟩
    · rw [same, grown.directory there]
    · simp [h.outer.at?_below] at there
  file {q content} there := by
    rcases below q with same | ⟨⟨n, r, rfl⟩, _⟩
    · rw [same]
      exact grown.file there
    · simp [h.outer.at?_below] at there
  link {q target} there := by
    rcases below q with same | ⟨⟨n, r, rfl⟩, _⟩
    · rw [same, grown.link there]
    · simp [h.outer.at?_below] at there
  noLink {q target} there := by
    rcases below q with same | ⟨_, noLink⟩
    · exact grown.noLink (same ▸ there)
    · exact absurd there (noLink target)

/-- Where the archive's text leads: to the entry of its name, if that is a name. -/
theorem leads_archive (grown : mid.Grows gs) :
    gs.LeadsTo c.archive (d ++ (Name.ofBytes? (Utf8.encode c.layout.archiveName)).toList) := by
  have leads := (h.leads grown).join h.sound.archive (h.plain grown)
  rw [h.sound.archive_segments, Segment.names_map_name] at leads
  rwa [c.archive_eq]

/-- A directory that is new above the archive could only be the archive itself. -/
theorem archive_of_onWay (grown : mid.Grows gs) (onWay : gs.OnWay c.archive q)
    (missing : gs.at? q = none) : ∃ n, Name.ofBytes? (Utf8.encode c.layout.archiveName) = some n ∧
    q = d ++ [n] := by
  have steady : gs.Steady c.archive := (h.steady grown).joinText h.sound.archive
  have above := prefix_of_onWay steady onWay missing (h.leads_archive grown)
  have strictly : ¬ q <+: d := fun above => h.ne_none_of_above grown above missing
  cases named : Name.ofBytes? (Utf8.encode c.layout.archiveName) with
  | none => exact absurd (by simpa [named] using above) strictly
  | some n =>
      rcases List.prefix_concat_iff.1 (by simpa [named] using above) with here | higher
      · exact ⟨n, rfl, here⟩
      · exact absurd higher strictly

/-- What the archive's text means is the entry of that name. -/
theorem archive_of_means (grown : mid.Grows gs) (means : gs.Means c.archive q) :
    ∃ n, Name.ofBytes? (Utf8.encode c.layout.archiveName) = some n ∧ q = d ++ [n] := by
  obtain ⟨noZero, meant⟩ := means
  obtain ⟨n, named⟩ :=
    h.sound.archive_valid fun zero => noZero (mem_joinText h.sound.archive.relative zero)
  have names : Segment.names (Path.segments (Utf8.encode c.layout.archiveName)) = [n] := by
    rw [h.sound.archive_segments, Segment.names_map_name, named]
    rfl
  have some_ : Segment.names (Path.segments (Utf8.encode c.layout.archiveName)) ≠ [] := by
    simp [names]
  refine ⟨n, named, ?_⟩
  rw [← names]
  rcases meant with leads | names'
  · exact leads.eq_of_join (h.leads grown) h.sound.archive (h.plain grown)
  · exact names'.eq_of_join (h.leads grown) h.sound.archive (h.plain grown) some_

/-- The archiver changes the archive at most. -/
theorem pack_phase (keeps : a.KeepsTo) (grown : mid.Grows w.files) :
    mid.Grows (leftBy (a.pack c.layout.stagingDir c.layout.archivePath w)).files ∧
      ∀ q, (leftBy (a.pack c.layout.stagingDir c.layout.archivePath w)).files.at? q =
        w.files.at? q ∨ ∃ n, Name.ofBytes? (Utf8.encode c.layout.archiveName) = some n ∧
        q = d ++ [n] := by
  have packs := keeps c.layout.stagingDir c.layout.archivePath w
  generalize (leftBy (a.pack c.layout.stagingDir c.layout.archivePath w)).files = gs at packs
  have changed : ∀ q, gs.at? q = w.files.at? q ∨
      (∃ n, Name.ofBytes? (Utf8.encode c.layout.archiveName) = some n ∧ q = d ++ [n]) ∧
        ∀ target, gs.at? q ≠ some (.link target) := by
    intro q
    rcases packs.at? q with same | ⟨missing, new, onWay⟩ | ⟨means, new⟩
    · exact .inl same
    · exact .inr ⟨h.archive_of_onWay grown onWay missing, by simp [new]⟩
    · refine .inr ⟨h.archive_of_means grown means, ?_⟩
      rcases new with gone | ⟨content, file⟩
      · simp [gone]
      · simp [file]
  refine ⟨h.grows_of_below grown packs.workingDir packs.limits fun q => ?_, fun q => ?_⟩
  · rcases changed q with same | ⟨⟨n, _, here⟩, noLink⟩
    · exact .inl same
    · exact .inr ⟨⟨n, [], here⟩, noLink⟩
  · exact (changed q).imp_right And.left

/-- The cleanup takes away the staging directory at most. -/
theorem cleanup_phase (grown : mid.Grows w.files) :
    mid.Grows (leftBy (cleanupStaging c.layout.stagingDir w)).files ∧
      ∀ q, (leftBy (cleanupStaging c.layout.stagingDir w)).files.at? q = w.files.at? q ∨
        (leftBy (cleanupStaging c.layout.stagingDir w)).files.at? q = none ∧ s <+: q ∧
          w.files.at? s = some .directory := by
  have away := w.files.without_tookAway c.staging
  have lost : ∀ q, (w.files.without c.staging).at? q = w.files.at? q ∨
      (w.files.without c.staging).at? q = none ∧ s <+: q ∧ w.files.at? s = some .directory := by
    intro q
    rcases away.at? q with same | ⟨gone, e, names, below, there⟩
    · exact .inl same
    · have here : e = s := by
        rw [h.place]
        exact names.eq_of_join (h.leads grown) h.sound.stagingDir (h.plain grown) h.named
      rw [here] at below there
      refine .inr ⟨gone, below, there.resolve_right ?_⟩
      rintro ⟨target, isLink⟩
      exact h.plain_staging grown [] target (by simpa using isLink)
  have files : (leftBy (cleanupStaging c.layout.stagingDir w)).files = w.files.without c.staging :=
    Work.leftBy_files _ _ w
  rw [files]
  refine ⟨h.grows_of_below grown away.workingDir away.limits fun q => ?_, lost⟩
  rcases lost q with same | ⟨gone, below, _⟩
  · exact .inl same
  · obtain ⟨n, r, split⟩ := List.exists_cons_of_ne_nil h.named
    obtain ⟨r', rfl⟩ := below
    exact .inr ⟨⟨n, r ++ r', by simp [h.place, split]⟩, by simp [gone]⟩

/-- The jars come below the output directory. -/
theorem jars_phase (grown : mid.Grows w.files) :
    Fills (d <+: ·) w.files
      (leftBy (collect c.sourceRoot .prebuiltArchives c.layout.destinationRoot w)).files := by
  refine (collect_fills _ _ _ w (h.steady grown)).mono ?_
  rintro t ⟨names, leads⟩
  have place :=
    leads.unique ((h.leads grown).join (Path.descends_relativePath names) (h.plain grown))
  exact place ▸ List.prefix_append ..

/-- Where the copied jars come from and where they are put. -/
theorem jars_ok {jars : List String} (grown : mid.Grows w.files)
    (copied : collect c.sourceRoot .prebuiltArchives c.layout.destinationRoot w = .ok jars w') :
    ∃ w₁ ds, findMatches c.sourceRoot .prebuiltArchives w = .ok jars w₁ ∧
      Copies ds w.files w'.files ∧ (∀ path ∈ jars, ∃ e ∈ ds,
        e.Of c.sourceRoot c.layout.destinationRoot d w'.files path) ∧
      ∀ e ∈ ds, ∃ path ∈ jars, e.Of c.sourceRoot c.layout.destinationRoot d w'.files path :=
  collect_copies copied (h.anchored.sourceRoot.of_within (h.bare_grows grown).toWithin)
    (h.steady grown) (h.leads grown) (h.plain grown)

/-- After the filling all that changes lies below the output directory. -/
theorem finish_left (keeps : a.KeepsTo) (grown : mid.Grows w.files) (q : Place) :
    (leftBy (c.finish a w)).files.at? q = w.files.at? q ∨ d <+: q := by
  unfold Config.finish
  obtain ⟨grown₁, changed₁⟩ := h.pack_phase keeps grown
  have changed₁ : ∀ q, (leftBy (a.pack c.layout.stagingDir c.layout.archivePath w)).files.at? q =
      w.files.at? q ∨ d <+: q := fun q =>
    (changed₁ q).imp_right fun ⟨n, _, here⟩ => here ▸ List.prefix_append ..
  cases packed : a.pack c.layout.stagingDir c.layout.archivePath w with
  | error e w₁ =>
      rw [bind_of_error packed]
      simpa [packed] using changed₁ q
  | ok _ w₁ =>
      rw [packed, leftBy_ok] at grown₁ changed₁
      rw [bind_of_ok packed]
      obtain ⟨grown₂, changed₂⟩ := h.cleanup_phase grown₁
      have changed₂ : ∀ q, (leftBy (cleanupStaging c.layout.stagingDir w₁)).files.at? q =
          w₁.files.at? q ∨ d <+: q := fun q => (changed₂ q).imp_right fun below =>
            h.below.trans below.2.1
      cases cleaned : cleanupStaging c.layout.stagingDir w₁ with
      | error e w₂ =>
          rw [cleaned, leftBy_error] at changed₂
          rw [bind_of_error cleaned, leftBy_error]
          rcases changed₂ q with same | below
          · rw [same]
            exact changed₁ q
          · exact .inr below
      | ok _ w₂ =>
          rw [cleaned, leftBy_ok] at grown₂ changed₂
          rw [bind_of_ok cleaned]
          rcases (h.jars_phase grown₂).at? q with same | ⟨missing, _, t, below, above⟩ | ⟨_, below⟩
          · rw [same]
            rcases changed₂ q with same | below
            · rw [same]
              exact changed₁ q
            · exact .inr below
          · -- A new directory above a jar is below the output directory, which is there.
            rcases List.prefix_or_prefix_of_prefix above below with higher | deeper
            · exact absurd missing (h.ne_none_of_above grown₂ higher)
            · exact .inr deeper
          · exact .inr below

end Config.Prepared
end ClassPack
