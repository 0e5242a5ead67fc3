import ClassPack.Proofs.FileSystem.Planting
import ClassPack.Proofs.FileSystem.Visiting
import ClassPack.Proofs.Phases

/-!
# WorkingFiles — what becomes of the files for the working directory

* `Config.Lasts` — a file of the manifest is not in the way of anything that comes after it: the
  manifest's later files, the archive, the cleanup and the copied jars;
* `working_files_last` — when a run goes well, such a file is in the working directory as it is in
  the source root. The checks do not see to it: `working_files_lost`.
-/

namespace ClassPack

open FileSystem

variable {c : Config} {a : Archiver} {elapsed : Nat} {s s' : Session} {summary : Summary}
  {start mid fs gs : FileSystem} {d q st : Place} {w w' w₁ w₂ w₃ w₄ : Workshop} {f : AuxFile}
  {before later : List AuxFile} {classes jars : List String} {report : AuxReport}

namespace Config

/-- The text of a file of the manifest in the source root. -/
def sourceText (c : Config) (f : AuxFile) : Path := Utf8.encode (joinText c.sourceRoot f.source)

/-- The text of its copy in the working directory. -/
def workingText (c : Config) (f : AuxFile) : Path := Utf8.encode (joinText c.workingDir f.target)

/-- What comes after a file of the manifest leaves its copy in the working directory alone. All is
told of what is there without the old output directory; `jars` are the jars copied, `later` the
manifest's files that come after it. -/
structure Lasts (c : Config) (fs : FileSystem) (jars : List String) (f : AuxFile)
    (later : List AuxFile) : Prop where
  /-- There is a file to be copied. -/
  source : ∃ content, fs.read? (c.sourceText f) = some content
  /-- The text of the copy is not too long to be read. -/
  fit : fs.vet (c.workingText f) = .ok ()
  /-- To find the file one does not look into the output directory. -/
  outside : ∀ q d, fs.Looks (c.sourceText f) q → fs.LeadsTo c.destination d → ¬ d <+: q
  /-- To find the copy one looks neither into the staging directory -/
  staging : ∀ q st, fs.Looks (c.workingText f) q → fs.LeadsTo c.staging st → ¬ st <+: q
  /-- nor at the archive. -/
  archive : ∀ q, fs.Looks (c.workingText f) q → ¬ fs.LeadsTo c.archive q
  /-- No jar goes there. -/
  jars : ∀ path ∈ jars, ∀ t, fs.LeadsTo (c.workingText f) t →
    ¬ fs.LeadsTo (Utf8.encode (joinText c.layout.destinationRoot path)) t
  /-- No later file of the manifest goes there, nor where the file comes from. -/
  later : ∀ g ∈ later, ∀ t, fs.LeadsTo
    (Utf8.encode (g.destination c.layout.stagingDir c.workingDir)) t →
    ¬ fs.LeadsTo (c.workingText f) t ∧ ¬ fs.LeadsTo (c.sourceText f) t

end Config

/-- A file stands where two texts lead, and it holds the same under both. -/
def FileSystem.Agree (fs : FileSystem) (source target : Path) : Prop :=
  ∃ o t content, fs.Arrives source o ∧ fs.Arrives target t ∧ fs.at? o = some (.file content) ∧
    fs.at? t = some (.file content)

theorem FileSystem.Agree.read? {source target : Path} (h : fs.Agree source target) :
    ∃ content, fs.read? target = some content ∧ fs.read? source = some content := by
  obtain ⟨o, t, content, reads, arrives, there, copied⟩ := h
  exact ⟨content, read?_eq_some_iff.2 ⟨t, arrives, copied⟩, read?_eq_some_iff.2 ⟨o, reads, there⟩⟩

/-- The two stay the same as long as both files are kept. -/
theorem FileSystem.Agree.of_kept {source target : Path} (h : fs.Agree source target)
    (reads : ∀ o, fs.Arrives source o → gs.Arrives source o)
    (arrives : ∀ t, fs.Arrives target t → gs.Arrives target t)
    (kept : ∀ q content, fs.Arrives source q ∨ fs.Arrives target q →
      fs.at? q = some (.file content) → gs.at? q = some (.file content)) :
    gs.Agree source target := by
  obtain ⟨o, t, content, from_, into, there, copied⟩ := h
  exact ⟨o, t, content, reads o from_, arrives t into, kept o content (.inl from_) there,
    kept t content (.inr into) copied⟩

namespace Config.Prepared

variable (h : c.Prepared start mid fs d st)

include h

/-- A file of the manifest that was copied, or was there already. -/
theorem agree_of_copyAuxFile (grown : mid.Grows w.files) (there : f ∈ c.auxFiles)
    (placed : f.placement = .workingDir)
    (lasts : c.Lasts (c.cleared start) jars f later)
    (copied : copyAuxFile c.sourceRoot c.layout.stagingDir c.workingDir f w = .ok () w') :
    w'.files.Agree (c.sourceText f) (c.workingText f) := by
  have bare := h.bare_grows grown
  have destination : f.destination c.layout.stagingDir c.workingDir =
      joinText c.workingDir f.target := by
    simp [AuxFile.destination, placed]
  rcases copyAuxFile_ok copied (h.starts_source grown there) (h.steady_destination grown there) with
    ⟨same, kept⟩ | ⟨e, source, target, made⟩
  · -- The file is its own target, and it was there before the run made anything.
    rw [destination] at same
    obtain ⟨p, leads, _, arrives⟩ := arrives_of_isSameFile same
    obtain ⟨_, read⟩ := lasts.source
    obtain ⟨o, reads, file⟩ := read?_eq_some_iff.1 read
    have reads : w.files.Arrives (c.sourceText f) o := reads.of_within bare.toWithin
      (h.anchored.sourceRoot.joinText (h.sound.source f there))
    obtain rfl : o = p := reads.leads.unique leads
    obtain ⟨content, file⟩ := bare.file file
    have arrives := arrives ((bare.vet _).trans lasts.fit)
    rw [kept]
    exact ⟨o, o, content, reads, arrives, file, file⟩
  · rw [destination] at target
    have source : e.source = c.sourceText f := source
    have target : e.target = c.workingText f := target
    have copy : w'.files.at? e.place = some (.file e.content) := made.delivers.at?_self
    refine ⟨e.origin, e.place, e.content, source ▸ made.source, target ▸ made.target, ?_, copy⟩
    by_cases same : e.origin = e.place
    · rw [same, copy]
    · have content := made.content
      rw [if_neg same] at content
      exact made.delivers.fills.file_kept content same

/-- The manifest's later files leave both alone. -/
theorem agree_of_later (grown : mid.Grows w.files) (member : ∀ g ∈ later, g ∈ c.auxFiles)
    (there : f ∈ c.auxFiles) (lasts : c.Lasts (c.cleared start) jars f later)
    (copied : forM later (copyAuxFile c.sourceRoot c.layout.stagingDir c.workingDir) w = .ok () w')
    (agree : w.files.Agree (c.sourceText f) (c.workingText f)) :
    w'.files.Agree (c.sourceText f) (c.workingText f) := by
  have bare := h.bare_grows grown
  have fills := copyAuxFiles_fills later w (fun g listed => h.starts_source grown (member g listed))
    fun g listed => h.steady_destination grown (member g listed)
  rw [copied, leftBy_ok] at fills
  refine agree.of_kept (fun o reads => reads.of_within fills.toWithin (h.starts_source grown there))
    (fun t arrives => arrives.of_within fills.toWithin ?_) fun q content reached file => ?_
  · exact (h.anchored.workingDir.starts.joinText (h.sound.target f there)).of_within bare.toWithin
  · refine fills.file_kept file ?_
    rintro ⟨g, listed, _, leads⟩
    obtain ⟨notTarget, notSource⟩ := lasts.later g listed q (bare.leadsTo_iff.1 leads)
    rcases reached with reads | arrives
    · exact notSource (bare.leadsTo_iff.1 reads.leads)
    · exact notTarget (bare.leadsTo_iff.1 arrives.leads)

/-- What is looked at for either file is the same when the archive has been made and the staging
directory taken away. -/
theorem at?_of_looks (keeps : a.KeepsTo) (grown : mid.Grows w₁.files)
    (packed : a.pack c.layout.stagingDir c.layout.archivePath w₁ = .ok () w₂)
    (cleaned : cleanupStaging c.layout.stagingDir w₂ = .ok () w₃)
    (lasts : c.Lasts (c.cleared start) jars f later)
    (looks : (c.cleared start).Looks (c.sourceText f) q ∨
      (c.cleared start).Looks (c.workingText f) q) :
    w₃.files.at? q = w₁.files.at? q := by
  obtain ⟨grown₂, archive⟩ := h.pack_phase keeps grown
  rw [packed, leftBy_ok] at grown₂ archive
  obtain ⟨_, staging⟩ := h.cleanup_phase grown₂
  rw [cleaned, leftBy_ok] at staging
  have kept : w₂.files.at? q = w₁.files.at? q := by
    refine (archive q).resolve_right ?_
    rintro ⟨n, named, here⟩
    rcases looks with source | target
    · exact lasts.outside q d source h.outer.leads (here ▸ List.prefix_append ..)
    · have leads := (h.bare_grows grown).leadsTo_iff.1 (h.leads_archive grown)
      rw [named] at leads
      exact lasts.archive q target (here ▸ leads)
  have stays : w₃.files.at? q = w₂.files.at? q := by
    refine (staging q).resolve_right ?_
    rintro ⟨_, below, _⟩
    rcases looks with source | target
    · exact lasts.outside q d source h.outer.leads (h.below.trans below)
    · exact lasts.staging q st target
        ((h.bare_grows grown).leadsTo_iff.1 (h.leads_staging grown)) below
  exact stays.trans kept

omit h in
/-- Once the staging directory is filled, the file is where it belongs. -/
theorem agree_of_fillStaging (h : c.Prepared start mid w.files d st)
    (fill : fillStaging c w = .ok (classes, report) w') (split : c.auxFiles = before ++ f :: later)
    (placed : f.placement = .workingDir) (lasts : c.Lasts (c.cleared start) jars f later) :
    w'.files.Agree (c.sourceText f) (c.workingText f) := by
  obtain ⟨w₁, found, all, _⟩ := fillStaging_ok fill
  obtain ⟨_, ds, copies, _⟩ := collect_ok found
    (h.anchored.sourceRoot.of_within (h.bare_grows h.grows).toWithin)
    ((h.steady h.grows).joinText h.sound.stagingDir)
  have grown₁ := h.grows.trans copies.grows
  have listed : ∀ g, g ∈ before ∨ g = f ∨ g ∈ later → g ∈ c.auxFiles := fun g => by simp [split]
  rw [split] at all
  obtain ⟨w₂, front, all⟩ := forM_append_eq_ok.1 all
  obtain ⟨_, w₃, copied, back⟩ := bind_eq_ok.1 all
  have fills₁ :=
    copyAuxFiles_fills before w₁ (fun g there => h.starts_source grown₁ (listed g (.inl there)))
    fun g there => h.steady_destination grown₁ (listed g (.inl there))
  rw [front, leftBy_ok] at fills₁
  have grown₂ := grown₁.trans fills₁.toGrows
  have there : f ∈ c.auxFiles := listed f (.inr (.inl rfl))
  have fills₂ := copyAuxFile_fills c.sourceRoot c.layout.stagingDir c.workingDir f w₂
    (h.steady_destination grown₂ there)
  rw [copied, leftBy_ok] at fills₂
  have agree := h.agree_of_copyAuxFile grown₂ there placed lasts copied
  exact h.agree_of_later (grown₂.trans fills₂.toGrows)
    (fun g later => listed g (.inr (.inr later))) there
    lasts back agree

/-- The archive, the cleanup and the jars leave both alone. -/
theorem agree_of_finish (keeps : a.KeepsTo) (grown : mid.Grows w₁.files)
    (packed : a.pack c.layout.stagingDir c.layout.archivePath w₁ = .ok () w₂)
    (cleaned : cleanupStaging c.layout.stagingDir w₂ = .ok () w₃)
    (copied : collect c.sourceRoot .prebuiltArchives c.layout.destinationRoot w₃ = .ok jars w₄)
    (there : f ∈ c.auxFiles) (lasts : c.Lasts (c.cleared start) jars f later)
    (agree : w₁.files.Agree (c.sourceText f) (c.workingText f)) :
    w₄.files.Agree (c.sourceText f) (c.workingText f) := by
  have bare := h.bare_grows grown
  have grown₂ := (h.pack_phase keeps grown).1
  rw [packed, leftBy_ok] at grown₂
  have grown₃ := (h.cleanup_phase grown₂).1
  rw [cleaned, leftBy_ok] at grown₃
  -- Neither reading looks at what the archiver and the cleanup change.
  have looked : w₃.files.Agree (c.sourceText f) (c.workingText f) := by
    have workingDir := grown₃.workingDir.trans grown.workingDir.symm
    have limits := grown₃.limits.trans grown.limits.symm
    refine agree.of_kept (fun o reads => reads.of_looks workingDir limits fun q looks => ?_)
      (fun t arrives => arrives.of_looks workingDir limits fun q looks =>
        ?_) fun q content reached file => ?_
    · exact h.at?_of_looks keeps grown packed cleaned lasts (.inl (bare.looks_iff.1 looks))
    · exact h.at?_of_looks keeps grown packed cleaned lasts (.inr (bare.looks_iff.1 looks))
    · have looks := reached.imp (fun reads => bare.looks_iff.1 reads.leads.looks)
        fun arrives => bare.looks_iff.1 arrives.leads.looks
      rw [h.at?_of_looks keeps grown packed cleaned lasts looks]
      exact file
  obtain ⟨_, ds, _, copies, _, all⟩ := h.jars_ok grown₃ copied
  have bare₃ := h.bare_grows grown₃
  refine looked.of_kept (fun o reads => reads.of_within copies.grows.toWithin
    (h.starts_source grown₃ there)) (fun t arrives =>
      arrives.of_within copies.grows.toWithin ?_) fun q content reached file => ?_
  · exact (h.anchored.workingDir.starts.joinText (h.sound.target f there)).of_within bare₃.toWithin
  · refine (copies.file_iff fun e listed here => ?_).2 file
    obtain ⟨path, found, copy⟩ := all e listed
    rcases reached with reads | arrives
    · obtain ⟨names, _, place⟩ := copy.place
      refine lasts.outside q d (bare₃.leadsTo_iff.1 reads.leads).looks h.outer.leads ?_
      rw [← here, place]
      exact List.prefix_append ..
    · have bare₄ := h.bare_grows (grown₃.trans copies.grows)
      have toward := bare₄.leadsTo_iff.1 (copy.target ▸ copy.arrives.leads)
      exact lasts.jars path found q (bare₃.leadsTo_iff.1 arrives.leads) (here ▸ toward)

end Config.Prepared

/-! ## On return -/

/-- When a run goes well, the summary counts the files for the working directory, and each that
nothing later gets in the way of is there with the bytes that it has in the source root. -/
theorem working_files_last (anchored : c.Anchored s.workshop.files) (trusted : a.Trusted)
    (done : run c a elapsed s = .ok summary s') :
    summary.auxFiles.workingDir = c.auxFiles.countP (·.placement = .workingDir) ∧
      ∃ classes jars report w₁ w₂ w₃ w₄, c.Stages a s.workshop classes jars report w₁ w₂ w₃ w₄ ∧
        summary.prebuiltArchives = jars.length ∧
        ∀ before f later, c.auxFiles = before ++ f :: later → f.placement = .workingDir →
          c.Lasts (c.cleared s.workshop.files) jars f later →
          ∃ content, s'.workshop.files.read? (c.workingText f) = some content ∧
            s'.workshop.files.read? (c.sourceText f) = some content := by
  obtain ⟨classes, jars, report, w₁, w₂, w₃, w₄, stages, files, rfl⟩ := run_stages done
  obtain ⟨accepted, w₀, made, fill⟩ := stages.filled
  obtain ⟨mid, d, st, prepared⟩ := prepare_ok made (Config.sound_of_validate accepted) anchored
  obtain ⟨_, _, _, rfl⟩ := fillStaging_ok fill
  refine ⟨rfl, classes, jars, _, w₁, w₂, w₃, w₄, stages,
    rfl, fun before f later split placed lasts => ?_⟩
  rw [files]
  have fills := prepared.fillStaging_fills rfl
  rw [fill, leftBy_ok] at fills
  have agree := prepared.agree_of_fillStaging fill split placed lasts
  exact (prepared.agree_of_finish trusted.keepsTo (prepared.grows.trans fills.toGrows) stages.packed
    stages.cleaned stages.copied (by simp [split]) lasts agree).read?

/-- A game with all files of the usual manifest. -/
def wholeGame : FileSystem :=
  ([("/pz", .directory), ("/pz/stdlib.lbc", holding "stdlib"),
    ("/pz/serialize.lua", holding "serialize"), ("/pz/media", .directory),
    ("/pz/media/lua", .directory), ("/pz/media/lua/shared", .directory),
    ("/pz/media/lua/shared/defines.lua", holding "defines"),
    ("/pz/media/lua/shared/Sandbox", .directory),
    ("/pz/media/lua/shared/Sandbox/Apocalypse.lua", holding "apocalypse")]
  : List (String × Entry)).foldl (fun fs (text, e) => fs.plant text e) (empty {})

/-- The usual run beside it. -/
def usualConfig : Config := { sourceRoot := "/pz", workingDir := "/work" }

/-- The last file of the usual manifest. -/
def apocalypse : AuxFile := .samePath "media/lua/shared/Sandbox/Apocalypse.lua" .workingDir

theorem usualConfig_lasts : usualConfig.Lasts (usualConfig.cleared wholeGame) [] apocalypse [] := by
  have linkless : (usualConfig.cleared wholeGame).links = [] := by decide
  have source : ∀ {q}, (usualConfig.cleared wholeGame).Looks (usualConfig.sourceText apocalypse) q →
      q <+: Path.spelled (usualConfig.sourceText apocalypse) :=
    prefix_of_looks linkless (by decide) (by decide)
  have target : ∀ {q}, (usualConfig.cleared wholeGame).Looks
      (usualConfig.workingText apocalypse) q →
      q <+: Path.spelled (usualConfig.workingText apocalypse) :=
    prefix_of_looks linkless (by decide) (by decide)
  have file : ((usualConfig.cleared wholeGame).read? (usualConfig.sourceText apocalypse)).isSome =
      true := by
    decide
  refine ⟨Option.isSome_iff_exists.1 file, by decide, fun q d looks leads below => ?_,
    fun q st looks leads below => ?_, fun q looks leads => ?_, by simp, by simp⟩
  · obtain rfl := place_of_leadsTo linkless (by decide) leads
    exact absurd (below.trans (source looks)) (by decide)
  · obtain rfl := place_of_leadsTo linkless (by decide) leads
    exact absurd (below.trans (target looks)) (by decide)
  · obtain rfl := place_of_leadsTo linkless (by decide) leads
    exact absurd (target looks) (by decide)

theorem working_files_last_usual :
    ∃ summary s', run usualConfig zipArchiver 0 (.opening wholeGame) = .ok summary s' ∧
      ∃ content, s'.workshop.files.read? (usualConfig.workingText apocalypse) = some content ∧
        s'.workshop.files.read? (usualConfig.sourceText apocalypse) = some content := by
  have result : resultOf? (run usualConfig zipArchiver 0 (.opening wholeGame)) =
      some ⟨"/work/lib/b42.jar", 0, ⟨1, 3⟩, 0, 0⟩ := by decide +kernel
  obtain ⟨s', done⟩ := resultOf?_eq_some result
  obtain ⟨_, classes, jars, report, w₁, w₂, w₃, w₄, stages, count, last⟩ :=
    working_files_last (.of_absolute (by decide) (by decide) (by decide)) .zip done
  obtain rfl : jars = [] := List.length_eq_zero_iff.1 count.symm
  exact ⟨_, s', done, last (defaultManifest.take 3) apocalypse [] rfl rfl usualConfig_lasts⟩

/-- A run whose staging directory is the one that two files of the usual manifest go to. -/
def buryingConfig : Config :=
  { sourceRoot := "/pz", workingDir := "/work", outDir := "media", stagingDirName := "lua" }

/-- The run goes well and counts three files, but two of them went with the staging directory. -/
theorem working_files_lost :
    buryingConfig.auxFiles = defaultManifest ∧ buryingConfig.validate wholeGame = .ok () ∧
      resultOf? (run buryingConfig zipArchiver 0 (.opening wholeGame)) =
        some ⟨"/work/media/b42.jar", 0, ⟨1, 3⟩, 0, 0⟩ ∧
      ["serialize.lua", "media/lua/shared/defines.lua",
       "media/lua/shared/Sandbox/Apocalypse.lua"].map
        (fun path =>
          (leftBy (run buryingConfig zipArchiver 0 (.opening wholeGame))).workshop.files.isFile
            (Utf8.encode (joinText buryingConfig.workingDir path))) = [true, false, false] := by
  decide +kernel

end ClassPack
