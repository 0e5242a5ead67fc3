import ClassPack.Proofs.Copying
import ClassPack.Proofs.FileSystem.Overwriting
import ClassPack.Proofs.FileSystem.Planting
import ClassPack.Proofs.Recopying

/-!
# OwnTarget — a file that is its own target is left alone

* `FileSystem.Spelled` — a place whose absolute text can be given. Two texts that arrive at a place
  are known to lead to the same one if and only if it is such a place: `isSameFile_iff_spelled`;
* `copyAuxFile_keeps` — a file there is not emptied by a copy of itself, whatever comes of the copy;
  at any other place it is (`copyAuxFile_empties`);
* `own_target_kept` — so it is in the course of a manifest, where the file is counted all the same.
-/

namespace ClassPack

open FileSystem

variable {fs : FileSystem} {s : Place} {w w₁ : Workshop} {source target : String}
  {content : Content}

/-! ## Places with a text -/

/-- The names on the way to a place spell a text, and the system takes the absolute one. -/
structure FileSystem.Spelled (fs : FileSystem) (s : Place) : Prop where
  text : (Utf8.decode? s.path).isSome
  short : exceeds s.path.length fs.limits.path = false

theorem canonical?_of_arrives (arrives : fs.Arrives (Utf8.encode source) s)
    (there : fs.at? s ≠ none) : fs.canonical? source =
      if exceeds s.path.length fs.limits.path then none else Utf8.decode? s.path := by
  obtain ⟨links, resolved⟩ := arrives
  obtain ⟨fit, way⟩ := resolve_eq_ok_iff.1 resolved
  have some_ : Utf8.encode source ≠ [] := fun none_ => by simp [vet, none_] at fit
  unfold canonical?
  simp only
  rw [if_neg (by simp [some_, zero_not_mem_of_vet fit]), way]
  simp [there]

/-- Two texts that arrive at one place are known to lead to the same one if and only if it
has a text. -/
theorem isSameFile_iff_spelled (there : fs.at? s ≠ none)
    (arrives : fs.Arrives (Utf8.encode source) s) (arrives' : fs.Arrives (Utf8.encode target) s) :
    isSameFile fs source target = true ↔ fs.Spelled s := by
  unfold isSameFile
  rw [canonical?_of_arrives arrives there, canonical?_of_arrives arrives' there]
  constructor
  · intro same
    split at same
    · rename_i text _ found _
      split at found
      · cases found
      · rename_i short
        exact ⟨by simp [found], by simpa using short⟩
    · cases same
  · rintro ⟨text, short⟩
    obtain ⟨text, found⟩ := Option.isSome_iff_exists.1 text
    simp [short, found]

/-! ## One file -/

/-- A copy leaves its source as it was, unless that is its own target and is not known to be. -/
theorem copyFile_keeps (spelled : w.files.Spelled s)
    (arrives : w.files.Arrives (Utf8.encode source) s) (file : w.files.at? s = some (.file content))
    (steady : w.files.Steady (Utf8.encode target))
    (other : isSameFile w.files source target = false) :
    (leftBy (copyFile source target w)).files.at? s = some (.file content) := by
  obtain ⟨mid, made, _, ends⟩ := copyFile_cases source target w
  have kept : mid.at? s = some (.file content) := by
    rcases made.at? s with same | ⟨missing, _⟩
    · rw [same, file]
    · simp [file] at missing
  rcases ends with ⟨_, _, failed, rfl⟩ | ⟨w', done, copied⟩
  · rwa [failed]
  · rw [done, leftBy_ok]
    obtain ⟨_, t, _, _, writes, wrote, _⟩ := copy_ok copied
    rw [wrote.at?, if_neg, kept]
    -- Were it the target, that would have been there before anything was made, and known to be the
    -- same.
    rintro rfl
    obtain rfl : mid = w.files :=
      made.eq_of_there steady (made.grows.leadsTo_iff.1 writes.leads) (by simp [file])
    have arrives' := writes.arrives (.refl _) steady.starts file
    simp [(isSameFile_iff_spelled (by simp [file]) arrives arrives').2 spelled] at other

/-- A file that is copied onto itself is empty afterwards, and nothing else has changed. -/
theorem copyFile_empties
    (start : w.files.at? (Path.origin (Utf8.encode target) w.files.workingDir) = some .directory)
    (arrives : w.files.Arrives (Utf8.encode source) s)
    (arrives' : w.files.Arrives (Utf8.encode target) s)
    (file : w.files.at? s = some (.file content)) : ∃ w', copyFile source target w = .ok () w' ∧
    Wrote s (.plain []) w.files w'.files := by
  obtain ⟨dir, n, site, _⟩ := writingSite_of_arrives start arrives' file
  obtain ⟨gs, copied⟩ := copy_ok_of_open (readingSite_eq_ok_iff.2 ⟨arrives, content, file⟩)
    (show openForWriting (Utf8.encode target) w.files = .ok (dir, n) _ by rw [openForWriting, site])
  have emptied : Wrote s (.plain []) w.files gs := by
    obtain ⟨_, _, _, reads, writes, wrote, empty⟩ := copy_ok copied
    obtain rfl := reads.leads.unique arrives.leads
    obtain rfl := writes.leads.unique arrives'.leads
    rw [if_pos rfl] at empty
    exact empty ▸ wrote
  unfold copyFile
  obtain ⟨w₀, logged, same⟩ := Work.log_ok .trace s!"copy {source} -> {target}" w
  rw [bind_of_ok logged]
  rw [← same] at start arrives' file copied emptied ⊢
  cases up : Path.parent? (Utf8.encode target) with
  | none => exact ⟨_, Work.files_of_ok copied, emptied⟩
  | some upper =>
      -- The directories above are there.
      have made := createDirs_parent_of_arrives start arrives' file up
      exact ⟨_, bind_eq_ok.2 ⟨(), _, Work.files_of_ok made, Work.files_of_ok copied⟩, emptied⟩

section Manifest

variable {sourceRoot stagingDir workingDir : String} {before : List AuxFile} {f : AuxFile}

theorem copyAuxFile_keeps (spelled : w.files.Spelled s)
    (arrives : w.files.Arrives (Utf8.encode (joinText sourceRoot f.source)) s)
    (file : w.files.at? s = some (.file content))
    (steady : w.files.Steady (Utf8.encode (f.destination stagingDir workingDir))) :
    (leftBy (copyAuxFile sourceRoot stagingDir workingDir f w)).files.at? s =
      some (.file content) := by
  by_cases own : isSameFile w.files (joinText sourceRoot f.source)
    (f.destination stagingDir workingDir) = true
  · obtain ⟨w', done, unchanged⟩ := copyAuxFile_of_same own
    rw [done, leftBy_ok, unchanged, file]
  · obtain ⟨w', unchanged, copies⟩ := copyAuxFile_of_other own
    rw [copies]
    rw [← unchanged] at spelled arrives file steady own
    exact copyFile_keeps spelled arrives file steady (by simpa using own)

theorem copyAuxFile_empties
    (other : isSameFile w.files (joinText sourceRoot f.source)
      (f.destination stagingDir workingDir) ≠ true)
    (start : w.files.at? (Path.origin (Utf8.encode (f.destination stagingDir workingDir))
      w.files.workingDir) = some .directory)
    (arrives : w.files.Arrives (Utf8.encode (joinText sourceRoot f.source)) s)
    (arrives' : w.files.Arrives (Utf8.encode (f.destination stagingDir workingDir)) s)
    (file : w.files.at? s = some (.file content)) :
    ∃ w', copyAuxFile sourceRoot stagingDir workingDir f w = .ok () w' ∧
      Wrote s (.plain []) w.files w'.files := by
  obtain ⟨w₀, same, copies⟩ := copyAuxFile_of_other other
  rw [copies]
  rw [← same] at start arrives arrives' file ⊢
  exact copyFile_empties start arrives arrives' file

/-- One more file in a manifest is one more in the report. -/
theorem ofManifest_insert (before after : List AuxFile) (f : AuxFile) :
    (AuxReport.ofManifest (before ++ f :: after)).staged =
        (AuxReport.ofManifest (before ++ after)).staged + (if f.placement = .staged then 1 else 0) ∧
      (AuxReport.ofManifest (before ++ f :: after)).workingDir =
        (AuxReport.ofManifest (before ++ after)).workingDir +
          (if f.placement = .workingDir then 1 else 0) := by
  simp only [AuxReport.ofManifest, List.countP_append, List.countP_cons, decide_eq_true_eq]
  omega

/-- What comes of a file in the course of a manifest, whatever the files before it have changed. If
its place has a text and that of the target steps up only from what is there, it is not emptied by
being copied onto itself. If it is its own target, the next file is turned to: nothing has changed
if its place has a text, and otherwise it is empty. In each case it is in the report. -/
theorem own_target_kept {report₁ : AuxReport}
    (reached : copyAuxFiles sourceRoot before stagingDir workingDir w = .ok report₁ w₁)
    (source : w₁.files.Arrives (Utf8.encode (joinText sourceRoot f.source)) s)
    (file : w₁.files.at? s = some (.file content)) :
    (w₁.files.Spelled s → w₁.files.Steady (Utf8.encode (f.destination stagingDir workingDir)) →
      (leftBy (copyAuxFile sourceRoot stagingDir workingDir f w₁)).files.at? s =
        some (.file content)) ∧
    (w₁.files.Arrives (Utf8.encode (f.destination stagingDir workingDir)) s → w₁.files.Spelled s →
      ∃ w₂, copyAuxFiles sourceRoot (before ++ [f]) stagingDir workingDir w =
        .ok (report₁.count f.placement) w₂ ∧ w₂.files = w₁.files) ∧
    (w₁.files.Arrives (Utf8.encode (f.destination stagingDir workingDir)) s → ¬ w₁.files.Spelled s →
      w₁.files.at? (Path.origin (Utf8.encode (f.destination stagingDir workingDir))
        w₁.files.workingDir) = some .directory →
      ∃ w₂, copyAuxFiles sourceRoot (before ++ [f]) stagingDir workingDir w =
        .ok (report₁.count f.placement) w₂ ∧ Wrote s (.plain []) w₁.files w₂.files) ∧
    ∀ after report w',
      copyAuxFiles sourceRoot (before ++ f :: after) stagingDir workingDir w = .ok report w' →
      report.staged = (AuxReport.ofManifest (before ++ after)).staged +
        (if f.placement = .staged then 1 else 0) ∧
      report.workingDir = (AuxReport.ofManifest (before ++ after)).workingDir +
        (if f.placement = .workingDir then 1 else 0) := by
  obtain ⟨front, rfl⟩ := copyAuxFiles_eq_ok.1 reached
  have turn : ∀ {w₂}, copyAuxFile sourceRoot stagingDir workingDir f w₁ = .ok () w₂ →
      copyAuxFiles sourceRoot (before ++ [f]) stagingDir workingDir w =
        .ok ((AuxReport.ofManifest before).count f.placement) w₂ := fun copied => by
    refine copyAuxFiles_eq_ok.2 ⟨forM_append_eq_ok.2 ⟨w₁, front, bind_eq_ok.2 ⟨(), _, copied, rfl⟩⟩,
      ?_⟩
    cases placed : f.placement <;> simp [AuxReport.count, AuxReport.ofManifest, placed]
  refine ⟨fun spelled => copyAuxFile_keeps spelled source file, fun arrives spelled => ?_,
    fun arrives garbled start => ?_, fun after report w' done => ?_⟩
  · obtain ⟨w₂, copied, unchanged⟩ :=
      copyAuxFile_of_same ((isSameFile_iff_spelled (by simp [file]) source arrives).2 spelled)
    exact ⟨w₂, turn copied, unchanged⟩
  · have other : isSameFile w₁.files (joinText sourceRoot f.source)
        (f.destination stagingDir workingDir) ≠ true :=
      fun same => garbled ((isSameFile_iff_spelled (by simp [file]) source arrives).1 same)
    obtain ⟨w₂, copied, emptied⟩ := copyAuxFile_empties other start source arrives file
    exact ⟨w₂, turn copied, emptied⟩
  · obtain ⟨_, rfl⟩ := copyAuxFiles_eq_ok.1 done
    exact ofManifest_insert before after f

/-- A game of two files, and a link to it. -/
def sharedGame : FileSystem :=
  ((((empty {}).plant "/pz" .directory).plant "/pz/a.lua" (holding "a")).plant "/pz/f.lua"
    (holding "f")).plant "/work" (linkTo "pz")

/-- The first file is staged; the second one is its own target, by way of the link. -/
theorem own_target_kept_shared :
    ∃ w₁ s content,
      copyAuxFiles "/pz" [.samePath "a.lua" .staged] "/st" "/work" ⟨sharedGame, [], []⟩ =
        .ok ⟨1, 0⟩ w₁ ∧
      w₁.files.Arrives (Utf8.encode (joinText "/pz" "f.lua")) s ∧
      w₁.files.at? s = some (.file content) ∧ w₁.files.Spelled s ∧
      w₁.files.Steady (Utf8.encode "/work/f.lua") ∧ w₁.files.Arrives (Utf8.encode "/work/f.lua") s ∧
      (leftBy (copyAuxFile "/pz" "/st" "/work" (.samePath "f.lua" .workingDir) w₁)).files.at? s =
        some (.file content) := by
  let before : Work AuxReport := copyAuxFiles "/pz" [.samePath "a.lua" .staged] "/st" "/work"
  let w₁ : Workshop := leftBy (before ⟨sharedGame, [], []⟩)
  let s : Place := Path.spelled (Utf8.encode "/pz/f.lua")
  have reached : before ⟨sharedGame, [], []⟩ = .ok ⟨1, 0⟩ w₁ := by
    obtain ⟨w', done⟩ :=
      resultOf?_eq_some (r := before ⟨sharedGame, [], []⟩) (a := ⟨1, 0⟩) (by decide)
    simp only [w₁, done, leftBy_ok]
  have source : w₁.files.Arrives (Utf8.encode (joinText "/pz" "f.lua")) s := ⟨40, by decide⟩
  have arrives : w₁.files.Arrives (Utf8.encode "/work/f.lua") s := ⟨39, by decide⟩
  have spelled : w₁.files.Spelled s := ⟨by decide, by decide⟩
  have steady : w₁.files.Steady (Utf8.encode "/work/f.lua") :=
    arrives.steady
      (by simp [Starts, show Path.origin (Utf8.encode "/work/f.lua") w₁.files.workingDir = [] by
        decide])
  obtain ⟨content, file⟩ := isFileAt_iff.1 (show w₁.files.isFileAt s = true by decide)
  exact ⟨w₁, s, content, reached, source, file, spelled, steady, arrives,
    (own_target_kept (f := .samePath "f.lua" .workingDir) reached source file).1 spelled steady⟩

end Manifest

/-! ## Files that are not known to be their own targets -/

/-- A directory whose name is no text, with a file in it, and a link to the directory. -/
def garbledHome : FileSystem :=
  let home : Name := ⟨[0xff], by decide⟩
  (((empty {}).put [] home .directory).put [home] ⟨Utf8.encode "f.lua", by decide⟩
    (holding "f")).plant "/pz" (.link home.bytes)

/-- A directory with a file in it. -/
def plainHome : FileSystem := ((empty {}).plant "/pz" .directory).plant "/pz/f.lua" (holding "f")

/-- A file is emptied that is its own target, and counted: its directory has no text, or the text of
the target steps up from what is missing until the directories above are made. -/
theorem own_target_emptied :
    garbledHome.holds "/pz/f.lua" "f" = true ∧ plainHome.holds "/pz/f.lua" "f" = true ∧
      ∀ home ∈ [(garbledHome, "/pz"), (plainHome, "/x/../pz")],
        let run := copyAuxFiles "/pz" [.samePath "f.lua" .workingDir] "/st" home.2 ⟨home.1, [], []⟩
        resultOf? run = some ⟨0, 1⟩ ∧ (leftBy run).files.holds "/pz/f.lua" "" = true ∧
          (leftBy run).files.resolve (Utf8.encode (joinText home.2 "f.lua")) =
            (leftBy run).files.resolve (Utf8.encode "/pz/f.lua") := by
  decide

end ClassPack
