import ClassPack.Config
import ClassPack.Proofs.Path.Segments

/-!
# Accepted — what an accepted configuration is like

* `Config.Sound` — the output directory, the staging directory's name, the archive's name and both
  ends of every manifest entry only go down from where they are read;
* `Config.sound_of_validate` — configurations that are accepted are so.
-/

namespace ClassPack

/-- Every text that is read below the working directory, the output directory or the source root
only goes down from there. -/
structure Config.Sound (c : Config) : Prop where
  outDir : Path.Descends (Utf8.encode c.outDir)
  outDir_ne_nil : Utf8.encode c.outDir ≠ []
  stagingDir : Path.Descends (Utf8.encode c.stagingDirName)
  stagingDir_named : ∃ part ∈ Path.components (Utf8.encode c.stagingDirName), part.isName = true
  archive : Path.Descends (Utf8.encode c.layout.archiveName)
  archive_segments : Path.segments (Utf8.encode c.layout.archiveName) =
    (Name.ofBytes? (Utf8.encode c.layout.archiveName)).toList.map .name
  archive_valid : 0 ∉ Utf8.encode c.layout.archiveName →
    ∃ n, Name.ofBytes? (Utf8.encode c.layout.archiveName) = some n
  source : ∀ f ∈ c.auxFiles, Path.Descends (Utf8.encode f.source)
  target : ∀ f ∈ c.auxFiles, Path.Descends (Utf8.encode f.target)

/-! ## Slashes in strings -/

theorem Utf8.encode_ofList (cs : List Char) :
    Utf8.encode (String.ofList cs) = cs.flatMap String.utf8EncodeChar := by
  simp [Utf8.encode, List.utf8Encode]

/-- A byte below 128 is the spelling of a character by itself. -/
theorem Utf8.toNat_of_mem {b : UInt8} {c : Char} (h : b ∈ String.utf8EncodeChar c)
    (low : b.toNat < 128) : c.toNat = b.toNat := by
  have value : ∀ {n : Nat}, b = UInt8.ofNat n → n % 256 = b.toNat := fun {n} same => by
    simp [same]
  unfold String.utf8EncodeChar at h
  simp only at h
  split at h
  · rename_i small
    have single := value (List.mem_singleton.1 h)
    show c.val.toNat = b.toNat
    omega
  · -- Every byte of a longer spelling is above those of single characters.
    exfalso
    split at h
    · simp only [List.mem_cons, List.not_mem_nil, or_false] at h
      rcases h with same | same <;> (have residue := value same; omega)
    · split at h
      · simp only [List.mem_cons, List.not_mem_nil, or_false] at h
        rcases h with same | same | same <;> (have residue := value same; omega)
      · simp only [List.mem_cons, List.not_mem_nil, or_false] at h
        rcases h with same | same | same | same <;> (have residue := value same; omega)

/-- Only the slash itself is spelled with the byte of a slash. -/
theorem Utf8.eq_slash_of_mem {c : Char} (h : slash ∈ String.utf8EncodeChar c) : c = '/' :=
  Char.toNat_inj.1 (Utf8.toNat_of_mem h (by decide))

/-- Only the dot itself is spelled with the byte of a dot. -/
theorem Utf8.eq_dot_of_mem {c : Char} (h : dot ∈ String.utf8EncodeChar c) : c = '.' :=
  Char.toNat_inj.1 (Utf8.toNat_of_mem h (by decide))

theorem Utf8.slash_not_mem_encode {s : String} (h : '/' ∉ s.toList) : slash ∉ Utf8.encode s := by
  rw [← String.ofList_toList (s := s), Utf8.encode_ofList, List.mem_flatMap]
  rintro ⟨c, there, spelled⟩
  exact h (Utf8.eq_slash_of_mem spelled ▸ there)

/-! ## The checks -/

theorem descends_of_checkRelative {path what : String} (h : checkRelative path what = .ok ()) :
    Path.Descends (Utf8.encode path) ∧ Utf8.encode path ≠ [] := by
  unfold checkRelative at h
  split at h
  · rename_i plain
    simp only [isPlainlyBelow, Bool.and_eq_true] at plain
    obtain ⟨⟨_, named⟩, downward⟩ := plain
    refine ⟨Path.descends_of_components fun c there => List.all_eq_true.1 downward c there, ?_⟩
    intro none_
    simp [componentsOf, none_, Path.components, Path.pieces] at named
  · simp at h

theorem named_of_checkRelative {path what : String} (h : checkRelative path what = .ok ()) :
    ∃ part ∈ Path.components (Utf8.encode path), part.isName = true := by
  unfold checkRelative at h
  split at h
  · rename_i plain
    simp only [isPlainlyBelow, Bool.and_eq_true] at plain
    exact List.any_eq_true.1 plain.1.2
  · simp at h

/-- Both ends of every file of an accepted manifest are accepted. -/
theorem checks_of_validateManifest {files : List AuxFile} (h : validateManifest files = .ok ()) :
    ∀ f ∈ files, checkRelative f.source "manifest source" = .ok () ∧
      checkRelative f.target "manifest destination" = .ok () := by
  induction files with
  | nil => simp
  | cons f rest ih =>
      unfold validateManifest at h
      obtain ⟨_, source, h⟩ := ok_of_bind h
      obtain ⟨_, target, others⟩ := ok_of_bind h
      intro g there
      rcases List.mem_cons.1 there with rfl | later
      · exact ⟨source, target⟩
      · exact ih others g later

theorem descends_of_checkStagingName {name : String} (h : Config.checkStagingName name = .ok ()) :
    Path.Descends (Utf8.encode name) ∧
      ∃ part ∈ Path.components (Utf8.encode name), part.isName = true := by
  unfold Config.checkStagingName at h
  split at h
  · rename_i bytes single
    have single : Path.components (Utf8.encode name) = [.name bytes] := single
    refine ⟨Path.descends_of_components fun c there => ?_, .name bytes, by simp [single], rfl⟩
    rw [single, List.mem_singleton] at there
    simp [there, Path.Component.isDownward]
  · simp at h

theorem slash_not_mem_of_checkToken {value what : String}
    (h : Config.checkToken value what = .ok ()) : '/' ∉ value.toList := by
  unfold Config.checkToken at h
  split at h
  · rename_i plain
    intro there
    simp only [Bool.and_eq_true, List.all_eq_true] at plain
    simpa [Config.isTokenChar] using plain.2 _ there
  · simp at h

section ArchiveName

variable {version extension : String}

/-- No slash can hide in the version or in the extension. -/
theorem slash_not_mem_archiveFileName (hv : '/' ∉ version.toList) (he : '/' ∉ extension.toList) :
    slash ∉ Utf8.encode (archiveFileName version extension) := by
  refine Utf8.slash_not_mem_encode ?_
  rw [show archiveFileName version extension = "b" ++ version ++ "." ++ extension from rfl]
  simp [hv, he]

/-- The letter in front tells the name of an archive from texts that start otherwise. -/
theorem archiveFileName_ne {text : Path} (other : text.head? ≠ some 0x62) :
    Utf8.encode (archiveFileName version extension) ≠ text := by
  rintro rfl
  refine other ?_
  rw [show archiveFileName version extension = "b" ++ version ++ "." ++ extension from rfl]
  simp [show Utf8.encode "b" = [0x62] by decide]

/-- The name of an archive asks for a single name at most; one with a zero byte asks for none. -/
theorem archiveFileName_segments (hv : '/' ∉ version.toList) (he : '/' ∉ extension.toList) :
    Path.Descends (Utf8.encode (archiveFileName version extension)) ∧
      Path.segments (Utf8.encode (archiveFileName version extension)) =
        (Name.ofBytes? (Utf8.encode (archiveFileName version extension))).toList.map .name ∧
      (0 ∉ Utf8.encode (archiveFileName version extension) →
        ∃ n, Name.ofBytes? (Utf8.encode (archiveFileName version extension)) = some n) := by
  have plain := slash_not_mem_archiveFileName hv he
  have notDot : Utf8.encode (archiveFileName version extension) ≠ [dot] :=
    archiveFileName_ne (by simp [dot])
  have notDots : Utf8.encode (archiveFileName version extension) ≠ [dot, dot] :=
    archiveFileName_ne (by simp [dot])
  have valid : 0 ∉ Utf8.encode (archiveFileName version extension) →
      Name.Valid (Utf8.encode (archiveFileName version extension)) := fun noZero =>
    ⟨archiveFileName_ne (by simp), notDot, notDots, plain, noZero⟩
  refine ⟨Path.descends_of_slash_not_mem plain notDots, ?_,
    fun noZero => ⟨⟨_, valid noZero⟩, dif_pos (valid noZero)⟩⟩
  rw [Path.segments, Path.pieces_of_slash_not_mem plain]
  simp only [List.filterMap_cons, List.filterMap_nil, Segment.ofPiece?, if_neg notDot,
    if_neg notDots]
  cases Name.ofBytes? (Utf8.encode (archiveFileName version extension)) <;> rfl

end ArchiveName

namespace Config

variable {c : Config} {fs : FileSystem}

/-- An accepted configuration names a source root that is there, and its checks all hold. -/
theorem checks_of_validate (h : c.validate fs = .ok ()) :
    fs.isDir (Utf8.encode c.sourceRoot) = true ∧
      isInside (resolved fs c.workingDir) (resolved fs c.sourceRoot) = false ∧
      checkRelative c.outDir "output directory" = .ok () ∧
      isInside (resolved fs c.sourceRoot) (joinText (resolved fs c.workingDir) c.outDir) = false ∧
      checkStagingName c.stagingDirName = .ok () ∧ checkToken c.version "version" = .ok () ∧
      checkToken c.archiveExtension "archive extension" = .ok () ∧
      validateManifest c.auxFiles = .ok () := by
  unfold validate at h
  dsimp only at h
  split at h
  · cases h
  split at h
  · cases h
  rename_i _ isDir
  split at h
  · cases h
  rename_i outside
  obtain ⟨_, outDir, h⟩ := ok_of_bind h
  split at h
  · cases h
  rename_i apart
  obtain ⟨_, staging, h⟩ := ok_of_bind h
  obtain ⟨_, version, h⟩ := ok_of_bind h
  obtain ⟨_, extension, manifest⟩ := ok_of_bind h
  exact ⟨by simpa using isDir, by simpa using outside, outDir, by simpa using apart, staging,
    version, extension, manifest⟩

/-- The checks that look at the file system decide whether what is accepted on one is accepted
on another. -/
theorem validate_of_checks {gs : FileSystem} (h : c.validate fs = .ok ())
    (isDir : gs.isDir (Utf8.encode c.sourceRoot) = true)
    (outside : isInside (resolved gs c.workingDir) (resolved gs c.sourceRoot) = false)
    (apart : isInside (resolved gs c.sourceRoot) (joinText (resolved gs c.workingDir) c.outDir) =
      false) :
    c.validate gs = .ok () := by
  obtain ⟨isDir', outside', _, apart', _⟩ := checks_of_validate h
  unfold validate at h ⊢
  simpa only [isDir, isDir', outside, outside', apart, apart', Bool.not_true, Bool.false_eq_true,
    if_false] using h

theorem sound_of_validate (h : c.validate fs = .ok ()) : c.Sound := by
  obtain ⟨_, _, outDir, _, staging, version, extension, manifest⟩ := checks_of_validate h
  have files := checks_of_validateManifest manifest
  have name := archiveFileName_segments (slash_not_mem_of_checkToken version)
    (slash_not_mem_of_checkToken extension)
  exact {
    outDir := (descends_of_checkRelative outDir).1
    outDir_ne_nil := (descends_of_checkRelative outDir).2
    stagingDir := (descends_of_checkStagingName staging).1
    stagingDir_named := (descends_of_checkStagingName staging).2
    archive := name.1
    archive_segments := name.2.1
    archive_valid := name.2.2
    source := fun f there => (descends_of_checkRelative (files f there).1).1
    target := fun f there => (descends_of_checkRelative (files f there).2).1 }

/-- The staging directory's name asks for one name at most. -/
theorem stagingName_of_validate (h : c.validate fs = .ok ()) :
    (Segment.names (Path.segments (Utf8.encode c.stagingDirName))).length ≤ 1 := by
  obtain ⟨_, _, _, _, checked, _⟩ := checks_of_validate h
  unfold checkStagingName at checked
  split at checked
  · rename_i bytes single
    have single : Path.components (Utf8.encode c.stagingDirName) = [.name bytes] := single
    rw [Path.names_segments, single]
    exact List.length_filterMap_le ..
  · cases checked

end Config
end ClassPack
