import ClassPack.Proofs.Entries
import ClassPack.Proofs.FileSystem.Planting
import ClassPack.Proofs.Phases

/-!
# ArchiveKept — what becomes of the archive after it was made

* `Prepared.read?_archive` — what is read under the archive's text is the file of its name in the
  output directory;
* `Config.Undisturbed` — nothing else goes where a class file is staged, nor where it comes from;
* `archive_kept` — the cleanup leaves the archive as it is, and so do the copied jars, unless one of
  them has the archive's name: `archive_overwritten`.
-/

namespace ClassPack

open FileSystem

variable {c : Config} {a : Archiver} {elapsed : Nat} {s s' : Session} {summary : Summary}
  {start mid fs gs hs : FileSystem} {d q st : Place} {w w' : Workshop} {content : Content}
  {classes jars : List String} {report : AuxReport}

/-- The manifest leaves a class file alone: none of its files goes where the class file is staged or
comes from, and that is not in the output directory. -/
structure Config.Undisturbed (c : Config) (fs : FileSystem) (path : String) : Prop where
  outside : ∀ o d, fs.LeadsTo (Utf8.encode (joinText c.sourceRoot path)) o →
    fs.LeadsTo c.destination d → ¬ d <+: o
  source : ∀ f ∈ c.auxFiles, ∀ o, fs.LeadsTo (Utf8.encode (joinText c.sourceRoot path)) o →
    ¬ fs.LeadsTo (Utf8.encode (f.destination c.layout.stagingDir c.workingDir)) o
  target : ∀ f ∈ c.auxFiles, ∀ t, fs.LeadsTo (Utf8.encode (joinText c.layout.stagingDir path)) t →
    ¬ fs.LeadsTo (Utf8.encode (f.destination c.layout.stagingDir c.workingDir)) t

/-- The manifest of an archive is no class file, and neither is the root itself. -/
theorem ne_of_classFiles {path : String}
    (h : findMatches c.sourceRoot .classFiles w = .ok classes w') (there : path ∈ classes) :
    path ≠ manifestName ∧ path ≠ "" := by
  obtain ⟨selector, compiled, selected⟩ := selects_of_findMatches h
  have neither : ArtifactPattern.classFiles.compile.map (fun selector =>
      selector.selects manifestName || selector.selects "") = .ok false := by decide +kernel
  have neither : selector.selects manifestName = false ∧ selector.selects "" = false := by
    rw [compiled] at neither
    simpa [Except.map] using neither
  constructor
  · rintro rfl
    simp [selected _ there] at neither
  · rintro rfl
    simp [selected _ there] at neither

namespace Config.Prepared

variable (h : c.Prepared start mid fs d st)

include h

/-- The archive is the file of its name in the output directory, unless its text is no text that
can be read. -/
theorem read?_archive (grown : mid.Grows gs) :
    gs.read? c.archive = some content ↔
      mid.vet c.archive = .ok () ∧ ∃ n, Name.ofBytes? (Utf8.encode c.layout.archiveName) = some n ∧
        gs.at? (d ++ [n]) = some (.file content) := by
  have segments := h.sound.archive_segments
  rw [read?_eq_some_iff]
  constructor
  · rintro ⟨p, arrives, file⟩
    have place := h.place_of_leadsTo grown h.sound.archive arrives.leads
    rw [segments, Segment.names_map_name] at place
    obtain ⟨links, way⟩ := arrives
    refine ⟨(grown.vet _).symm.trans (resolve_eq_ok_iff.1 way).1, ?_⟩
    cases named : Name.ofBytes? (Utf8.encode c.layout.archiveName) with
    | none => simp [place, named, h.there grown] at file
    | some n => exact ⟨n, rfl, by simpa [place, named] using file⟩
  · rintro ⟨fit, n, named, file⟩
    have bytes : n.bytes = Utf8.encode c.layout.archiveName := by
      unfold Name.ofBytes? at named
      split at named <;> cases named
      rfl
    have noSlash : Path.endsInSlash (Utf8.encode c.layout.archiveName) = false := by
      rw [← bytes]
      unfold Path.endsInSlash
      by_contra ends
      exact n.valid.2.2.2.1 (List.mem_of_getLast? (by simpa using ends))
    rw [named] at segments
    refine ⟨d ++ [n], ?_, file⟩
    rw [← grown.vet, c.archive_eq] at fit
    rw [c.archive_eq]
    exact (h.arrives grown).join_name h.sound.archive.relative segments noSlash fit file

theorem read?_archive_congr (before : mid.Grows gs) (after : mid.Grows hs)
    (same : ∀ n content, Name.ofBytes? (Utf8.encode c.layout.archiveName) = some n →
      (hs.at? (d ++ [n]) = some (.file content) ↔ gs.at? (d ++ [n]) = some (.file content))) :
    hs.read? c.archive = gs.read? c.archive := by
  refine Option.ext fun content => ?_
  rw [h.read?_archive before, h.read?_archive after]
  refine and_congr_right fun _ => exists_congr fun n => and_congr_right fun named =>
    same n content named

/-- The cleanup takes no file away but in the staging directory, and the archive is none of them. -/
theorem read?_archive_of_cleanup (grown : mid.Grows w.files)
    (cleaned : cleanupStaging c.layout.stagingDir w = .ok () w') :
    w'.files.read? c.archive = w.files.read? c.archive := by
  obtain ⟨grown', changed⟩ := h.cleanup_phase grown
  rw [cleaned, leftBy_ok] at grown' changed
  refine h.read?_archive_congr grown grown' fun n content _ => ?_
  rcases changed (d ++ [n]) with same | ⟨gone, below, directory⟩
  · rw [same]
  · -- The staging directory itself has the archive's name, so there is no archive at all.
    have here : st = d ++ [n] := by
      rcases List.prefix_concat_iff.1 below with here | higher
      · exact here
      · have shorter := higher.length_le
        have := List.length_pos_iff.2 h.named
        rw [h.place, List.length_append] at shorter
        omega
    rw [here] at directory
    simp [gone, directory]

omit h in
/-- A path that leads to the archive from the output directory is the archive's name. -/
theorem eq_archiveName {path : String} {names : Place} {n : Name}
    (spelled : Utf8.encode path = names.relativePath)
    (named : Name.ofBytes? (Utf8.encode c.layout.archiveName) = some n)
    (place : d ++ names = d ++ [n]) :
    path = c.layout.archiveName := by
  obtain rfl := List.append_cancel_left place
  refine Utf8.encode_injective (spelled.trans ?_)
  unfold Name.ofBytes? at named
  split at named <;> cases named
  rfl

/-- Jars of other names leave the archive as it is. -/
theorem read?_archive_of_jars (grown : mid.Grows w.files)
    (copied : collect c.sourceRoot .prebuiltArchives c.layout.destinationRoot w = .ok jars w')
    (other : c.layout.archiveName ∉ jars) : w'.files.read? c.archive = w.files.read? c.archive := by
  obtain ⟨_, ds, _, copies, _, all⟩ := h.jars_ok grown copied
  refine h.read?_archive_congr grown (grown.trans copies.grows) fun n content named =>
    copies.file_iff ?_
  intro e there same
  obtain ⟨path, found, copy⟩ := all e there
  obtain ⟨names, spelled, place⟩ := copy.place
  exact other (eq_archiveName spelled named (place.symm.trans same) ▸ found)

/-- A jar of the archive's name is there instead of the archive, if it comes from elsewhere. -/
theorem read?_archive_of_clash (grown : mid.Grows w.files)
    (copied : collect c.sourceRoot .prebuiltArchives c.layout.destinationRoot w = .ok jars w')
    (clash : c.layout.archiveName ∈ jars)
    (outside : ∀ o, (c.cleared start).LeadsTo
      (Utf8.encode (joinText c.sourceRoot c.layout.archiveName)) o → ¬ d <+: o) :
    ∃ content, w'.files.read? c.archive = some content ∧
      w'.files.read? (Utf8.encode (joinText c.sourceRoot c.layout.archiveName)) = some content := by
  obtain ⟨_, ds, _, copies, each, all⟩ := h.jars_ok grown copied
  have grown' := grown.trans copies.grows
  obtain ⟨e, there, copy⟩ := each _ clash
  -- The jar's target is spelled like the archive.
  obtain ⟨content, file, read⟩ := read?_of_copies copies all there copy fun o leads =>
    outside o ((h.bare_grows grown').leadsTo_iff.1 leads)
  have target : e.target = c.archive := copy.target
  exact ⟨content, read?_eq_some_iff.2 ⟨_, target ▸ copy.arrives, file⟩, read⟩

/-! ## What is packed -/

omit h in
/-- The library's own archiver packs every file of the staging directory under its name, and packs
none that is too large. -/
theorem zipArchiver_ok (h : c.Prepared start mid fs d st) (grown : mid.Grows w.files)
    (arrives : w.files.Arrives c.staging st) (directory : w.files.at? st = some .directory)
    (packed : zipArchiver.pack c.layout.stagingDir c.layout.archivePath w = .ok () w') :
    ∃ entries, w'.files.read? c.archive = some (.ofEntries entries) ∧
      (∀ path (names : Place) content, Utf8.encode path = names.relativePath → names ≠ [] →
        path ≠ manifestName → ((path, content) ∈ entries ↔
          w.files.at? (st ++ names) = some (.file content))) ∧
      ∀ names content, w.files.at? (st ++ names) = some (.file content) →
        w.files.limits.fitsEntry content = true := by
  obtain ⟨made, onWay, ⟨_, _, failed, _⟩ | ⟨t, opened, writes, empty, wrote, fine⟩⟩ :=
    zipArchiver_cases c.layout.stagingDir c.layout.archivePath w
  · simp [packed] at failed
  rw [packed, leftBy_ok] at wrote
  have fine := fine w' packed
  have grown₁ := grown.trans onWay.grows
  have grown₂ := onWay.grows.trans (empty.grows writes.free)
  have starts : made.Starts c.archive := ((h.steady grown₁).joinText h.sound.archive).starts
  have here := writes.leads.unique (h.leads_archive grown₁)
  have file := wrote.at? t
  rw [if_pos rfl] at file
  have starts' : w.files.Starts c.staging := ((h.steady grown).joinText h.sound.stagingDir).starts
  have arrives' := arrives.of_within grown₂.toWithin starts'
  -- The archive lies beside the staging directory, not in it.
  have same : ∀ names content, names ≠ [] →
      (opened.at? (st ++ names) = some (.file content) ↔
        w.files.at? (st ++ names) = some (.file content)) := by
    intro names content inner
    rw [empty.at?, if_neg]
    · rcases onWay.at? (st ++ names) with same | ⟨missing, new, _⟩
      · rw [same]
      · simp [missing, new]
    · intro same
      have longer := congrArg List.length (same.trans here)
      have one : (Name.ofBytes? (Utf8.encode c.layout.archiveName)).toList.length ≤ 1 :=
        Option.length_toList_le
      have := List.length_pos_iff.2 inner
      have := List.length_pos_iff.2 h.named
      simp only [h.place, List.length_append] at longer
      omega
  refine ⟨_, read?_eq_some_iff.2 ⟨t, writes.arrives (wrote.grows writes.free) starts file, file⟩,
    fun path names content spelled inner other => ?_, fun names content file => ?_⟩
  · rw [mem_entries_iff arrives' (grown₂.directory directory) fine spelled inner other]
    exact same names content inner
  · have inner : names ≠ [] := by
      rintro rfl
      simp [directory] at file
    rw [← grown₂.limits]
    exact fitsEntry_of_packListing arrives' (grown₂.directory directory) fine
      ((same names content inner).2 file)

omit h in
/-- An undisturbed class file is staged as it is in the source root. -/
theorem staged_of_fillStaging (h : c.Prepared start mid w.files d st)
    (fill : fillStaging c w = .ok (classes, report) w') {path : String} (there : path ∈ classes)
    (undisturbed : c.Undisturbed (c.cleared start) path) :
    ∃ (names : Place) (content : Content), Utf8.encode path = names.relativePath ∧ names ≠ [] ∧
      path ≠ manifestName ∧ w'.files.at? (st ++ names) = some (.file content) ∧
        w'.files.read? (Utf8.encode (joinText c.sourceRoot path)) = some content := by
  obtain ⟨w₁, found, all, _⟩ := fillStaging_ok fill
  have root := h.anchored.sourceRoot.of_within (h.bare_grows h.grows).toWithin
  obtain ⟨_, ds, search, copies, each, others⟩ := collect_copies found root
    ((h.steady h.grows).joinText h.sound.stagingDir) (h.leads_staging h.grows)
    (h.plain_staging h.grows)
  have grown := h.grows.trans copies.grows
  obtain ⟨e, listed, copy⟩ := each path there
  obtain ⟨names, spelled, place⟩ := copy.place
  obtain ⟨content, staged, read⟩ := read?_of_copies copies others listed copy fun o leads inside =>
    undisturbed.outside o d ((h.bare_grows grown).leadsTo_iff.1 leads) h.outer.leads
      (h.below.trans inside)
  obtain ⟨o, arrives, file⟩ := read?_eq_some_iff.1 read
  obtain ⟨notManifest, notRoot⟩ := ne_of_classFiles search there
  -- The manifest's files come after the class files, and go elsewhere.
  have fills := copyAuxFiles_fills c.auxFiles w₁ (fun f member => h.starts_source grown member)
    fun f member => h.steady_destination grown member
  rw [all, leftBy_ok] at fills
  have target : (c.cleared start).LeadsTo
      (Utf8.encode (joinText c.layout.stagingDir path)) e.place :=
    (h.bare_grows grown).leadsTo_iff.1 (copy.target ▸ copy.arrives.leads)
  have source := (h.bare_grows grown).leadsTo_iff.1 arrives.leads
  refine ⟨names, content, spelled, ?_, notManifest, ?_, read?_eq_some_iff.2 ⟨o, ?_, ?_⟩⟩
  · rintro rfl
    exact notRoot (Utf8.encode_injective spelled)
  · rw [← place]
    refine fills.file_kept staged ?_
    rintro ⟨f, member, _, leads⟩
    exact undisturbed.target f member _ target ((h.bare_grows grown).leadsTo_iff.1 leads)
  · refine arrives.of_within fills.toWithin ?_
    exact (root.joinText (descends_of_relative ⟨names, spelled⟩)).of_within copies.grows.toWithin
  · refine fills.file_kept file ?_
    rintro ⟨f, member, _, leads⟩
    exact undisturbed.source f member _ source ((h.bare_grows grown).leadsTo_iff.1 leads)

end Config.Prepared

/-! ## The archive on return -/

/-- When a run goes well, the archive on return is what the archiver left, unless a jar of its
name came from the game: then it is that jar. An archive that the library makes itself holds
every undisturbed class file under its path, with the bytes it had in the source root when the
archive was made. -/
theorem archive_kept (anchored : c.Anchored s.workshop.files) (trusted : a.Trusted)
    (done : run c a elapsed s = .ok summary s') :
    ∃ classes jars report w₁ w₂ w₃ w₄, c.Stages a s.workshop classes jars report w₁ w₂ w₃ w₄ ∧
      summary.archivePath = c.layout.archivePath ∧
      (c.layout.archiveName ∉ jars → s'.workshop.files.read? c.archive = w₂.files.read? c.archive) ∧
      (c.layout.archiveName ∈ jars →
        (∀ o d, (c.cleared s.workshop.files).LeadsTo
            (Utf8.encode (joinText c.sourceRoot c.layout.archiveName)) o →
          (c.cleared s.workshop.files).LeadsTo c.destination d → ¬ d <+: o) →
        ∃ content, s'.workshop.files.read? c.archive = some content ∧
          s'.workshop.files.read? (Utf8.encode (joinText c.sourceRoot c.layout.archiveName)) =
            some content) ∧
      (a = zipArchiver →
        ∃ entries, w₂.files.read? c.archive = some (.ofEntries entries) ∧
          ∀ path ∈ classes, c.Undisturbed (c.cleared s.workshop.files) path →
            ∃ content, w₁.files.read? (Utf8.encode (joinText c.sourceRoot path)) = some content ∧
              ∀ content', (path, content') ∈ entries ↔ content' = content) := by
  obtain ⟨classes, jars, report, w₁, w₂, w₃, w₄, stages, files, rfl⟩ := run_stages done
  refine ⟨classes, jars, report, w₁, w₂, w₃, w₄, stages, rfl, ?_⟩
  rw [files]
  obtain ⟨accepted, w₀, made, fill⟩ := stages.filled
  obtain ⟨mid, d, st, prepared⟩ := prepare_ok made (Config.sound_of_validate accepted) anchored
  have fills := prepared.fillStaging_fills rfl
  rw [fill, leftBy_ok] at fills
  have grown := prepared.grows.trans fills.toGrows
  have grown₁ := (prepared.pack_phase trusted.keepsTo grown).1
  rw [stages.packed, leftBy_ok] at grown₁
  have grown₂ := (prepared.cleanup_phase grown₁).1
  rw [stages.cleaned, leftBy_ok] at grown₂
  refine ⟨fun other => ?_, fun clash outside => ?_, ?_⟩
  · calc w₄.files.read? c.archive = w₃.files.read? c.archive :=
          prepared.read?_archive_of_jars grown₂ stages.copied other
      _ = w₂.files.read? c.archive := prepared.read?_archive_of_cleanup grown₁ stages.cleaned
  · exact prepared.read?_archive_of_clash grown₂ stages.copied clash fun o leads =>
      outside o d leads prepared.outer.leads
  · rintro rfl
    have starts := ((prepared.steady prepared.grows).joinText prepared.sound.stagingDir).starts
    obtain ⟨entries, read, packs, _⟩ := prepared.zipArchiver_ok grown
      (prepared.inner.arrives.of_within fills.toWithin starts)
      (fills.directory prepared.inner.at?_self) stages.packed
    refine ⟨entries, read, fun path there undisturbed => ?_⟩
    obtain ⟨names, content, spelled, inner, other, staged, source⟩ :=
      prepared.staged_of_fillStaging fill there undisturbed
    refine ⟨content, source, fun content' => ?_⟩
    rw [packs path names content' spelled inner other, staged]
    simp [eq_comm]

/-- A game with a class file and a jar. -/
def jarGame (jar : String) : FileSystem :=
  (((empty {}).plant "/pz" .directory).plant "/pz/a.class" (holding "class")).plant jar
    (holding "jar")

/-- A run beside it. -/
def jarConfig : Config := { sourceRoot := "/pz", workingDir := "/work", auxFiles := [] }

theorem archive_kept_beside_jar :
    ∃ summary s', run jarConfig zipArchiver 0 (.opening (jarGame "/pz/x.jar")) = .ok summary s' ∧
      ∃ classes jars report w₁ w₂ w₃ w₄,
        jarConfig.Stages zipArchiver ⟨jarGame "/pz/x.jar", [], []⟩ classes jars report w₁ w₂ w₃ w₄ ∧
          (jarConfig.layout.archiveName ∉ jars →
            s'.workshop.files.read? jarConfig.archive = w₂.files.read? jarConfig.archive) := by
  have result : resultOf? (run jarConfig zipArchiver 0 (.opening (jarGame "/pz/x.jar"))) =
      some ⟨"/work/lib/b42.jar", 1, ⟨0, 0⟩, 1, 0⟩ := by decide +kernel
  obtain ⟨s', done⟩ := resultOf?_eq_some result
  obtain ⟨classes, jars, report, w₁, w₂, w₃, w₄, stages, _, kept, _⟩ :=
    archive_kept (.of_absolute (by decide) (by decide) (by decide)) .zip done
  exact ⟨_, s', done, classes, jars, report, w₁, w₂, w₃, w₄, stages, kept⟩

/-- A jar of the game with the archive's name is there on return, not the archive that was made. -/
theorem archive_overwritten :
    jarConfig.validate (jarGame "/pz/b42.jar") = .ok () ∧
      resultOf? (run jarConfig zipArchiver 0 (.opening (jarGame "/pz/b42.jar"))) =
        some ⟨"/work/lib/b42.jar", 1, ⟨0, 0⟩, 1, 0⟩ ∧
      (leftBy (run jarConfig zipArchiver 0 (.opening (jarGame "/pz/b42.jar")))).workshop.files.holds
        "/work/lib/b42.jar" "jar" = true ∧
      (leftBy (run jarConfig zipArchiver 0 (.opening (jarGame "/pz/b42.jar")))).requests.map
        (fun r => (leftBy (zipArchiver.pack r.staged r.archive ⟨r.files, [], []⟩)).files.holds
          "/work/lib/b42.jar" "jar") = [false] := by
  decide +kernel

end ClassPack
