import ClassPack.Proofs.ArchiveKept
import ClassPack.Proofs.Finding
import ClassPack.Proofs.StagedTree

/-!
# Rebuilding — what is in the output directory when a run has gone well

* `Config.Shipped` — the places where files are: the archive, the copied jars, and what the manifest
  sends into the output directory by way of the working directory;
* `Prepared.at?_of_filled`, `Prepared.packed_ok` and `Prepared.cleaned_ok` — what stands at or below
  the output directory after each step; `Prepared.left_of_cleaned` puts them together, and
  `HoldsFiles.shipped` adds the jars;
* `ShippedTree` — the output directory holds files at those places, the directories above them,
  and nothing else;
* `destination_rebuilt` — a run that goes well leaves such a tree, whatever was there before. As for
  what is staged, the texts have to be readable without the old output directory:
  `stray_directory_or_archive_as_jar`.
-/

namespace ClassPack

open FileSystem

variable {c : Config} {elapsed : Nat} {s s' : Session} {summary : Summary}
  {start mid fs gs hs : FileSystem} {d q st t : Place} {w w' : Workshop}
  {classes jars : List String} {report : AuxReport} {ds : List Copied} {copied : Copied}
  {content : Content}

/-! ## What is shipped -/

/-- Where files are in the output directory `d` in the end; `st` is where the staging
directory was. -/
inductive Config.Shipped (c : Config) (fs : FileSystem) (jars : List String) (d st : Place) :
    Place → Prop where
  | archive {n : Name} : Name.ofBytes? (Utf8.encode c.layout.archiveName) = some n →
    Shipped c fs jars d st (d ++ [n])
  | jar {path : String} {names : Place} : path ∈ jars → Utf8.encode path = names.relativePath →
      Shipped c fs jars d st (d ++ names)
  | delivered {f : AuxFile} {t : Place} : f ∈ c.auxFiles → f.placement = .workingDir →
      fs.LeadsTo (Utf8.encode (joinText c.workingDir f.target)) t → ¬ st <+: t →
      Shipped c fs jars d st t

/-- The output directory `d` of a run that went well: files where they are shipped, the directories
above them, and nothing else. The archive is under its name, and every copied jar is as it is in the
source root. -/
structure ShippedTree (c : Config) (jars : List String) (d st : Place) (fs : FileSystem) :
    Prop where
  destination : fs.Arrives c.destination d
  staging : fs.LeadsTo c.staging st
  archive : ∃ content, fs.read? c.archive = some content
  file_iff : ∀ q, d <+: q → ((∃ content, fs.at? q = some (.file content)) ↔
    c.Shipped fs jars d st q)
  directory_iff : ∀ q, d <+: q →
    (fs.at? q = some .directory ↔ ∃ t, c.Shipped fs jars d st t ∧ q <+: t ∧ q ≠ t)
  plain : ∀ q, d <+: q → ∀ target, fs.at? q ≠ some (.link target)
  jar : ∀ path ∈ jars, ∃ content,
    fs.read? (Utf8.encode (joinText c.layout.destinationRoot path)) = some content ∧
      fs.read? (Utf8.encode (joinText c.sourceRoot path)) = some content

/-! ## Files, and the directories above them -/

/-- Of two places above a third, the one that is not above the other is below it. -/
theorem Place.above_cases {p q r : Place} (hp : p <+: r) (hq : q <+: r) (notAbove : ¬ p <+: q) :
    q <+: p ∧ q ≠ p := by
  rcases List.prefix_or_prefix_of_prefix hp hq with above | below
  · exact absurd above notAbove
  · refine ⟨below, ?_⟩
    rintro rfl
    exact notAbove (List.prefix_refl _)

/-- At and below a place, files are exactly where they should be, and every directory is above
one of them. -/
structure HoldsFiles (fs : FileSystem) (d : Place) (files : Place → Prop) : Prop where
  file_iff : ∀ q, d <+: q → ((∃ content, fs.at? q = some (.file content)) ↔ files q)
  directory : ∀ q, d <+: q → fs.at? q = some .directory → ∃ t, files t ∧ q <+: t ∧ q ≠ t

namespace HoldsFiles

variable {files files' : Place → Prop}

/-- The directories are the ones above the files. -/
theorem directory_iff (h : HoldsFiles fs d files) (below : d <+: q) :
    fs.at? q = some .directory ↔ ∃ t, files t ∧ q <+: t ∧ q ≠ t := by
  constructor
  · intro there
    exact h.directory q below there
  · rintro ⟨t, file, above, other⟩
    obtain ⟨content, there⟩ := (h.file_iff t (below.trans above)).2 file
    exact at?_of_above (by simp [there]) above other

theorem congr (h : HoldsFiles fs d files) (same : ∀ q, d <+: q → (files q ↔ files' q)) :
    HoldsFiles fs d files' where
  file_iff q below := (h.file_iff q below).trans (same q below)
  directory q below there := by
    obtain ⟨t, file, above, other⟩ := h.directory q below there
    exact ⟨t, (same t (below.trans above)).1 file, above, other⟩

/-- Copies add the places they are put to. -/
theorem copies (h : HoldsFiles fs d files) (copies : Copies ds fs gs) :
    HoldsFiles gs d fun q => files q ∨ ∃ e ∈ ds, e.place = q where
  file_iff q below := by
    constructor
    · rintro ⟨content, file⟩
      rw [copies.at?_eq] at file
      cases last : lastAt? (ds.map fun e => (e.place, e.content)) q with
      | some content' =>
          obtain ⟨e, there, same⟩ := List.mem_map.1 (mem_of_lastAt? last)
          exact .inr ⟨e, there, (Prod.mk.inj same).1⟩
      | none =>
          simp only [last] at file
          split at file
          · cases file
          · exact .inl ((h.file_iff q below).1 ⟨content, file⟩)
    · rintro (file | ⟨e, there, rfl⟩)
      · obtain ⟨content, file⟩ := (h.file_iff q below).2 file
        exact copies.grows.file file
      · obtain ⟨content, last⟩ :=
          lastAt?_of_mem (List.mem_map_of_mem (f := fun e => (e.place, e.content)) there)
        exact ⟨content, by rw [copies.at?_eq, last]⟩
  directory q below directory := by
    rw [copies.at?_eq] at directory
    cases last : lastAt? (ds.map fun e => (e.place, e.content)) q with
    | some content => simp [last] at directory
    | none =>
        simp only [last] at directory
        split at directory
        · rename_i above
          obtain ⟨e, there, above⟩ := above
          refine ⟨e.place, .inr ⟨e, there, rfl⟩, above, ?_⟩
          rintro rfl
          obtain ⟨content, found⟩ :=
            lastAt?_of_mem (List.mem_map_of_mem (f := fun e => (e.place, e.content)) there)
          simp [last] at found
        · obtain ⟨t, file, above, other⟩ := h.directory q below directory
          exact ⟨t, .inl file, above, other⟩

end HoldsFiles

/-! ## Step by step -/

/-- Where the working directory's entries of the manifest lead. -/
def Config.SentTo (c : Config) (fs : FileSystem) (t : Place) : Prop :=
  ∃ f ∈ c.auxFiles, f.placement = .workingDir ∧
  fs.LeadsTo (Utf8.encode (joinText c.workingDir f.target)) t

theorem FileSystem.Grows.sentTo_iff (h : fs.Grows gs) : c.SentTo gs t ↔ c.SentTo fs t := by
  unfold Config.SentTo
  simp only [h.leadsTo_iff]

/-- With the jars there, the output directory holds what is shipped. -/
theorem HoldsFiles.shipped {jarCopies : List Copied} {n : Name}
    (holds : HoldsFiles fs d fun q => q = d ++ [n] ∨ c.SentTo gs q ∧ ¬ st <+: q)
    (named : Name.ofBytes? (Utf8.encode c.layout.archiveName) = some n) (grown : mid.Grows gs)
    (grown' : mid.Grows hs) (copied : Copies jarCopies fs hs)
    (each : ∀ path ∈ jars, ∃ e ∈ jarCopies, e.Of c.sourceRoot c.layout.destinationRoot d hs path)
    (all : ∀ e ∈ jarCopies, ∃ path ∈ jars, e.Of c.sourceRoot c.layout.destinationRoot d hs path) :
    HoldsFiles hs d (c.Shipped hs jars d st) := by
  have sent : ∀ {q}, c.SentTo gs q ↔ c.SentTo hs q := grown.sentTo_iff.trans grown'.sentTo_iff.symm
  refine (holds.copies copied).congr fun q below => ?_
  constructor
  · rintro ((rfl | ⟨target, outside⟩) | ⟨e, there, rfl⟩)
    · exact .archive named
    · obtain ⟨f, member, placed, leads⟩ := sent.1 target
      exact .delivered member placed leads outside
    · obtain ⟨path, member, copy⟩ := all e there
      obtain ⟨names, spelled, place⟩ := copy.place
      exact place ▸ .jar member spelled
  · rintro (named' | ⟨member, spelled⟩ | ⟨member, placed, leads, outside⟩)
    · exact .inl (.inl (by rw [Option.some.inj (named.symm.trans named')]))
    · obtain ⟨e, there, copy⟩ := each _ member
      obtain ⟨names, spelled', place⟩ := copy.place
      obtain rfl := Path.relativePath_injective (spelled.symm.trans spelled')
      exact .inr ⟨e, there, place⟩
    · exact .inl (.inr ⟨sent.2 ⟨_, member, placed, leads⟩, outside⟩)

namespace Config.Prepared

variable (h : c.Prepared start mid fs d st)

include h

/-- The staging directory stands directly in the output directory. -/
theorem eq_of_above_staging (accepted : c.validate start = .ok ()) (below : d <+: q)
    (above : q <+: st) (other : q ≠ st) : q = d := by
  obtain ⟨r, rfl⟩ := below
  have one := stagingName_of_validate accepted
  rw [h.place] at above other
  have shorter := (List.prefix_append_right_inj d).1 above
  have strictly : r.length ≠
      (Segment.names (Path.segments (Utf8.encode c.stagingDirName))).length := fun same =>
    other (shorter.eq_of_length same ▸ rfl)
  obtain rfl : r = [] := List.length_eq_zero_iff.1 (by have := shorter.length_le; omega)
  simp

theorem not_staging_above : ¬ st <+: d := fun above => by
  have shorter := above.length_le
  have := List.length_pos_iff.2 h.named
  rw [h.place, List.length_append] at shorter
  omega

/-- A copy goes into the staging directory, or where the manifest sends it. -/
theorem place_of_copyTexts (found : ∀ path ∈ classes, Path.Descends (Utf8.encode path))
    (grown : mid.Grows gs) (listed : (copied.source, copied.target) ∈ c.copyTexts classes)
    (leads : gs.LeadsTo copied.target q) : st <+: q ∨ c.SentTo gs q := by
  have inside : ∀ {more : String}, Path.Descends (Utf8.encode more) →
      gs.LeadsTo (Utf8.encode (joinText c.layout.stagingDir more)) q → st <+: q := by
    intro more descends leads
    rw [h.place_of_leadsTo_staging grown descends leads]
    exact List.prefix_append ..
  rcases mem_copyTexts listed with ⟨path, there, _, target⟩ | ⟨f, there, _, target⟩
  · exact .inl (inside (found path there) (target ▸ leads))
  · cases placed : f.placement with
    | staged =>
        simp only [AuxFile.destination, placed] at target
        exact .inl (inside (h.sound.target f there) (target ▸ leads))
    | workingDir =>
        simp only [AuxFile.destination, placed] at target
        exact .inr ⟨f, there, placed, target ▸ leads⟩

/-- Outside the staging directory the filling leaves the files of the manifest that are sent there,
and directories above those files and above the staging directory. -/
theorem at?_of_filled (copies : Copies ds fs gs)
    (texts : ds.map (fun d => (d.source, d.target)) = c.copyTexts classes)
    (found : ∀ path ∈ classes, Path.Descends (Utf8.encode path)) :
    (∀ t, c.SentTo gs t → ∃ content, gs.at? t = some (.file content)) ∧
      ∀ q, d <+: q → ¬ st <+: q →
        (∀ content, gs.at? q = some (.file content) → c.SentTo gs q) ∧
        (gs.at? q = some .directory → q <+: st ∨ ∃ t, c.SentTo gs t ∧ ¬ st <+: t ∧ q <+: t ∧
          q ≠ t) := by
  have grown : mid.Grows gs := h.grows.trans copies.grows
  have listed : ∀ e ∈ ds, (e.source, e.target) ∈ c.copyTexts classes := fun e there =>
    texts ▸ List.mem_map_of_mem there
  have arrives : ∀ e ∈ ds, gs.Arrives e.target e.place := fun e there =>
    (copies.arrives_of_mem there (h.starts_of_copyTexts found h.grows (listed e there))).2
  have places : ∀ e ∈ ds, st <+: e.place ∨ c.SentTo gs e.place := fun e there =>
    h.place_of_copyTexts found grown (listed e there) (arrives e there).leads
  have filed : ∀ e ∈ ds, ∃ content, lastAt? (ds.map fun e => (e.place, e.content)) e.place =
      some content :=
    fun e there => lastAt?_of_mem (List.mem_map_of_mem (f := fun e => (e.place, e.content)) there)
  constructor
  · rintro t ⟨f, there, placed, leads⟩
    have text : (Utf8.encode (joinText c.sourceRoot f.source),
        Utf8.encode (joinText c.workingDir f.target)) ∈ c.copyTexts classes := by
      refine List.mem_append_right _ (List.mem_map.2 ⟨f, there, ?_⟩)
      simp [AuxFile.destination, placed]
    obtain ⟨e, member, same⟩ := List.mem_map.1 (texts ▸ text)
    have target : e.target = Utf8.encode (joinText c.workingDir f.target) := (Prod.mk.inj same).2
    obtain rfl : e.place = t := (arrives e member).leads.unique (target ▸ leads)
    obtain ⟨content, last⟩ := filed e member
    exact ⟨content, by rw [copies.at?_eq, last]⟩
  · intro q below aside
    -- Before the copies there was only what is above the staging directory.
    have before : fs.at? q = none ∨ fs.at? q = some .directory ∧ q <+: st := by
      rw [h.inner.raised.at?]
      split
      · rename_i above
        exact .inr ⟨rfl, above⟩
      · rename_i notAbove
        obtain ⟨r, rfl⟩ := below
        cases r with
        | nil => exact absurd (by simpa using h.below) notAbove
        | cons n r => exact .inl (h.outer.at?_below n r)
    rw [copies.at?_eq]
    cases last : lastAt? (ds.map fun e => (e.place, e.content)) q with
    | some content =>
        obtain ⟨e, there, same⟩ := List.mem_map.1 (mem_of_lastAt? last)
        obtain rfl : e.place = q := (Prod.mk.inj same).1
        exact ⟨fun _ _ => (places e there).resolve_left aside, by simp⟩
    | none =>
        dsimp only
        split
        · rename_i above
          obtain ⟨e, there, above⟩ := above
          refine ⟨by simp, fun _ => ?_⟩
          by_cases inside : st <+: e.place
          · exact .inl (Place.above_cases inside above aside).1
          · refine .inr ⟨e.place, (places e there).resolve_left inside, inside, above, ?_⟩
            rintro rfl
            obtain ⟨content, found⟩ := filed e there
            simp [last] at found
        · rcases before with missing | ⟨directory, above⟩
          · simp [missing]
          · simp [directory, above]

/-- The library's own archiver leaves a file where the archive is, and everything else as it was. -/
theorem packed_ok (grown : mid.Grows w.files)
    (packed : zipArchiver.pack c.layout.stagingDir c.layout.archivePath w = .ok () w') :
    w.files.Grows w'.files ∧
      ∃ n content, Name.ofBytes? (Utf8.encode c.layout.archiveName) = some n ∧
        w'.files.at? (d ++ [n]) = some (.file content) ∧ ∀ q, q ≠ d ++ [n] →
        w'.files.at? q = w.files.at? q := by
  obtain ⟨made, onWay, ⟨_, _, failed, _⟩ | ⟨t, opened, writes, _, wrote, _⟩⟩ :=
    zipArchiver_cases c.layout.stagingDir c.layout.archivePath w
  · simp [packed] at failed
  rw [packed, leftBy_ok] at wrote
  refine ⟨onWay.grows.trans (wrote.grows writes.free), ?_⟩
  obtain ⟨n, named⟩ := h.sound.archive_valid fun zero =>
    writes.noZero (mem_joinText h.sound.archive.relative zero)
  obtain rfl : t = d ++ [n] := by
    simpa [named] using writes.leads.unique (h.leads_archive (grown.trans onWay.grows))
  refine ⟨n, _, named, by rw [wrote.at?, if_pos rfl], fun q other => ?_⟩
  rw [wrote.at?, if_neg other]
  -- The directories above the archive are there already.
  rcases onWay.at? q with same | ⟨missing, _, new⟩
  · exact same
  · obtain ⟨n', named', rfl⟩ := h.archive_of_onWay grown new missing
    exact absurd (by simp [Option.some.inj (named.symm.trans named')]) other

/-- What keeps the staging directory keeps all that was there when it was made. -/
theorem within_of_staging (grown : mid.Grows gs) (stays : gs.at? st = some .directory) :
    fs.Within gs where
  workingDir := grown.workingDir.trans h.inner.raised.workingDir.symm
  limits := grown.limits.trans h.inner.raised.limits.symm
  directory {q} there := by
    rw [h.inner.raised.at?] at there
    split at there
    · rename_i above
      by_cases here : q = st
      · exact here ▸ stays
      · exact at?_of_above (by simp [stays]) above here
    · exact grown.directory there
  file {q content} there := by
    rw [h.inner.raised.at?] at there
    split at there
    · cases there
    · exact grown.file there
  link {q target} there := by
    rw [h.inner.raised.at?] at there
    split at there
    · cases there
    · exact grown.link there

/-- The cleanup takes away the staging directory with all that is in it, and nothing else. -/
theorem cleaned_ok (grown : mid.Grows w.files) (directory : w.files.at? st = some .directory)
    (cleaned : cleanupStaging c.layout.stagingDir w = .ok () w') (q : Place) :
    w'.files.at? q = if st <+: q then none else w.files.at? q := by
  obtain ⟨grown', changed⟩ := h.cleanup_phase grown
  rw [cleaned, leftBy_ok] at grown' changed
  have gone : w'.files.at? st = none := by
    rcases changed st with same | ⟨gone, _⟩
    · -- If it were still there, its text would still lead to it.
      have stays : w'.files.at? st = some .directory := same.trans directory
      have starts : fs.Starts c.staging := ((h.steady h.grows).joinText h.sound.stagingDir).starts
      have isDir : w'.files.isDir c.staging = true :=
        isDir_iff.2 ⟨st, h.inner.arrives.of_within (h.within_of_staging grown' stays) starts, stays⟩
      have noDir : w'.files.isDir c.staging = false :=
        not_isDir_of_removed (Work.files_eq_ok cleaned)
      simp [isDir] at noDir
    · exact gone
  split
  · rename_i below
    obtain ⟨r, rfl⟩ := below
    exact at?_append_of_missing gone r
  · rename_i aside
    exact (changed q).resolve_right fun lost => aside lost.2.1

/-- Before the jars come, the output directory holds the archive and what the manifest sent
there. -/
theorem holdsFiles_of_cleaned (accepted : c.validate start = .ok ()) (copies : Copies ds fs gs)
    (texts : ds.map (fun d => (d.source, d.target)) = c.copyTexts classes)
    (found : ∀ path ∈ classes, Path.Descends (Utf8.encode path)) {n : Name} {content : Content}
    (packed : ∀ q, q ≠ d ++ [n] → w'.files.at? q = gs.at? q)
    (archive : w'.files.at? (d ++ [n]) = some (.file content))
    (cleaned : ∀ q, hs.at? q = if st <+: q then none else w'.files.at? q)
    (aside : ¬ st <+: d ++ [n]) : HoldsFiles hs d fun q => q = d ++ [n] ∨ c.SentTo gs q ∧
    ¬ st <+: q := by
  obtain ⟨sent, filled⟩ := h.at?_of_filled copies texts found
  constructor
  · intro q below
    rw [cleaned]
    by_cases inside : st <+: q
    · have other : q ≠ d ++ [n] := fun same => aside (same ▸ inside)
      simp [inside, other]
    · rw [if_neg inside]
      by_cases here : q = d ++ [n]
      · subst here
        exact ⟨fun _ => .inl rfl, fun _ => ⟨content, archive⟩⟩
      · rw [packed q here]
        constructor
        · rintro ⟨content, file⟩
          exact .inr ⟨(filled q below inside).1 content file, inside⟩
        · rintro (same | ⟨target, _⟩)
          · exact absurd same here
          · exact sent q target
  · intro q below directory
    rw [cleaned] at directory
    split at directory
    · cases directory
    · rename_i inside
      have here : q ≠ d ++ [n] := by
        rintro rfl
        simp [archive] at directory
      rw [packed q here] at directory
      rcases (filled q below inside).2 directory with above | ⟨t, target, outside, above, other⟩
      · -- The output directory itself, which is above the archive.
        have strictly : q ≠ st := fun same => inside (same ▸ List.prefix_refl _)
        obtain rfl := h.eq_of_above_staging accepted below above strictly
        exact ⟨q ++ [n], .inl rfl, List.prefix_append .., by simp⟩
      · exact ⟨t, .inr ⟨target, outside⟩, above, other⟩

/-- When what was staged is packed and taken away, the output directory holds the archive, under a
name that is not the staging directory's, and what the manifest sent there. What can be reached from
the source root is as it was. -/
theorem left_of_cleaned (accepted : c.validate start = .ok ()) (clear : c.Clear (c.cleared start))
    {w₁ w₂ w₃ : Workshop} (copies : Copies ds fs w₁.files)
    (tree : StagedTree c classes ds st w₁.files)
    (found : ∀ path ∈ classes, Path.Descends (Utf8.encode path))
    (reached : ∀ q, c.Reaches (c.cleared start) q → w₁.files.at? q = (c.cleared start).at? q)
    (packed : zipArchiver.pack c.layout.stagingDir c.layout.archivePath w₁ = .ok () w₂)
    (cleaned : cleanupStaging c.layout.stagingDir w₂ = .ok () w₃) :
    ∃ n, Name.ofBytes? (Utf8.encode c.layout.archiveName) = some n ∧ ¬ st <+: d ++ [n] ∧
      mid.Grows w₃.files ∧ HoldsFiles w₃.files d (fun q => q = d ++ [n] ∨ c.SentTo w₁.files q ∧
        ¬ st <+: q) ∧
      ∀ q, c.Reaches (c.cleared start) q → w₃.files.at? q = (c.cleared start).at? q := by
  have grown₁ : mid.Grows w₁.files := h.grows.trans copies.grows
  obtain ⟨grows₂, n, content, named, archive, others⟩ := h.packed_ok grown₁ packed
  have grown₂ : mid.Grows w₂.files := grown₁.trans grows₂
  have directory : w₂.files.at? st = some .directory := grows₂.directory tree.self
  have aside : ¬ st <+: d ++ [n] := by
    intro above
    rcases List.prefix_concat_iff.1 above with here | higher
    · simp [here, archive] at directory
    · exact h.not_staging_above higher
  have gone := h.cleaned_ok grown₂ directory cleaned
  have grown₃ := (h.cleanup_phase grown₂).1
  rw [cleaned, leftBy_ok] at grown₃
  refine ⟨n, named, aside, grown₃,
    h.holdsFiles_of_cleaned accepted copies tree.texts found others archive gone aside,
    fun q reach => ?_⟩
  obtain ⟨notBelow, _⟩ := h.aside_of_reaches clear reach
  have other : q ≠ d ++ [n] := fun same => notBelow (same ▸ List.prefix_append ..)
  have outside : ¬ st <+: q := fun above => notBelow (h.below.trans above)
  calc w₃.files.at? q = w₂.files.at? q := by rw [gone, if_neg outside]
    _ = w₁.files.at? q := others q other
    _ = (c.cleared start).at? q := reached q reach

/-- Files that are found in the source root are found there again, if only more is there out
of its reach. -/
theorem findMatches_of_grows {pattern : ArtifactPattern} {v : Workshop} {paths : List String}
    (grown : mid.Grows w.files) (more : w.files.Within v.files)
    (same : ∀ q, c.Reaches (c.cleared start) q → v.files.at? q = w.files.at? q)
    (search : findMatches c.sourceRoot pattern w = .ok paths w') :
    ∃ v', findMatches c.sourceRoot pattern v = .ok paths v' := by
  obtain ⟨_, _, whole, _⟩ := findMatches_ok search
  have bare := h.bare_grows grown
  refine findMatches_congr search (walk_congr more same (fun p n => .inside n) ?_ ?_ ?_
    (mem_untilError whole).1)
  · intro p n links m reach followed
    exact .onward (.inside n reach) (bare.leads_iff.1 (.of_follow followed))
  · exact h.anchored.sourceRoot.of_within bare.toWithin
  · intro here resolved
    exact .root (bare.leadsTo_iff.1 (.of_resolve resolved))

end Config.Prepared

/-! ## On return -/

/-- When a run with the library's own archiver goes well, and its output keeps off the source, the
output directory is made from nothing. In the end it holds the archive, the jars that are found in
the source root, as they are there, and what the manifest sends there by way of the working
directory; else there are only the directories above these files. What can be reached from the
source root is as it was. -/
theorem destination_rebuilt (anchored : c.Anchored s.workshop.files)
    (clear : c.Clear (c.cleared s.workshop.files))
    (done : run c zipArchiver elapsed s = .ok summary s') :
    ∃ d st jars w', findMatches c.sourceRoot .prebuiltArchives s'.workshop = .ok jars w' ∧
      jars.Nodup ∧ summary.prebuiltArchives = jars.length ∧
      summary.archivePath = c.layout.archivePath ∧ ShippedTree c jars d st s'.workshop.files ∧
      (∀ q, d <+: q → (c.cleared s.workshop.files).at? q = none) ∧
      ∀ q, c.Reaches (c.cleared s.workshop.files) q →
        s'.workshop.files.at? q = (c.cleared s.workshop.files).at? q := by
  obtain ⟨classes, jars, report, w₁, w₂, w₃, w₄, stages, files, rfl⟩ := run_stages done
  obtain ⟨accepted, w₀, made, fill⟩ := stages.filled
  obtain ⟨mid, d, st, prepared⟩ := prepare_ok made (Config.sound_of_validate accepted) anchored
  -- Filling, packing and cleaning up.
  obtain ⟨ds, ⟨_, search⟩, _, copies, texts⟩ := prepared.copies clear fill
  have found : ∀ path ∈ classes, Path.Descends (Utf8.encode path) := fun path there =>
    descends_of_relative (relative_of_findMatches search path there)
  obtain ⟨tree, reached⟩ := prepared.stagedTree clear copies texts found
  have grown₁ : mid.Grows w₁.files := prepared.grows.trans copies.grows
  have grown₂ : mid.Grows w₂.files := grown₁.trans (prepared.packed_ok grown₁ stages.packed).1
  obtain ⟨n, named, aside, grown₃, holds, reached₃⟩ :=
    prepared.left_of_cleaned accepted clear copies tree found reached stages.packed stages.cleaned
  -- Copying the jars.
  obtain ⟨_, jarCopies, searched, copied, each, all⟩ := prepared.jars_ok grown₃ stages.copied
  have grown₄ : mid.Grows w₄.files := grown₃.trans copied.grows
  have inside : ∀ e ∈ jarCopies, d <+: e.place := by
    intro e there
    obtain ⟨_, _, copy⟩ := all e there
    obtain ⟨names, _, place⟩ := copy.place
    exact place ▸ List.prefix_append ..
  have untouched : ∀ q, c.Reaches (c.cleared s.workshop.files) q →
      w₄.files.at? q = w₃.files.at? q := by
    intro q reach
    obtain ⟨notBelow, notAbove⟩ := prepared.aside_of_reaches clear reach
    exact copied.at?_untouched fun e there above =>
      notAbove (Place.above_cases (inside e there) above notBelow).1
  have shipped := holds.shipped named grown₁ grown₄ copied each all
  obtain ⟨w', again⟩ :=
    prepared.findMatches_of_grows (v := s'.workshop) grown₃
      (by rw [files]; exact copied.grows.toWithin)
    (by rw [files]; exact untouched) searched
  rw [files]
  refine ⟨d, st, jars, w', again, findMatches_nodup again, rfl, rfl, ?_, ?_, ?_⟩
  · obtain ⟨entries, read, _⟩ := prepared.zipArchiver_ok grown₁ tree.staging tree.self stages.packed
    obtain ⟨fit, _⟩ := (prepared.read?_archive grown₂).1 read
    obtain ⟨content', final⟩ := (shipped.file_iff _ (List.prefix_append ..)).2 (.archive named)
    refine ⟨prepared.arrives grown₄, prepared.leads_staging grown₄,
      ⟨content', (prepared.read?_archive grown₄).2 ⟨fit, n, named, final⟩⟩, shipped.file_iff,
      fun q => shipped.directory_iff, ?_, ?_⟩
    · intro q below target
      obtain ⟨r, rfl⟩ := below
      exact prepared.plain grown₄ r target
    · intro path member
      obtain ⟨e, there, copy⟩ := each path member
      have descends := descends_of_relative (relative_of_findMatches searched path member)
      have outside : ∀ o, w₄.files.LeadsTo (Utf8.encode (joinText c.sourceRoot path)) o →
          ¬ d <+: o := fun o leads =>
        (prepared.aside_of_reaches clear
          (.of_joinText descends ((prepared.bare_grows grown₄).leadsTo_iff.1 leads))).1
      obtain ⟨content, file, read⟩ := read?_of_copies copied all there copy outside
      exact ⟨content, read?_eq_some_iff.2 ⟨_, copy.target ▸ copy.arrives, file⟩, read⟩
  · intro q below
    obtain ⟨r, rfl⟩ := below
    exact at?_append_of_missing prepared.outer.missing r
  · intro q reach
    rw [untouched q reach, reached₃ q reach]

/-- A game with a class file, a jar and a file for the manifest, and an old output directory. -/
def shippedGame : FileSystem :=
  ([("/pz", .directory), ("/pz/a.class", holding "class"), ("/pz/mods", .directory),
    ("/pz/mods/x.jar", holding "jar"), ("/pz/b.lua", holding "lua"), ("/work", .directory),
    ("/work/lib", .directory), ("/work/lib/old.jar", holding "old")]
  : List (String × Entry)).foldl (fun fs (text, e) => fs.plant text e) (empty {})

/-- A run that puts the file into the archive and, by way of the working directory, beside it. -/
def shippedConfig : Config :=
  { sourceRoot := "/pz", workingDir := "/work"
    auxFiles := [⟨"b.lua", "b.lua", .staged⟩, ⟨"b.lua", "lib/n/b.lua", .workingDir⟩] }

theorem shippedConfig_clear : shippedConfig.Clear (shippedConfig.cleared shippedGame) := by
  have linkless : (shippedConfig.cleared shippedGame).links = [] := by decide +kernel
  refine .of_links linkless (p := Path.spelled (Utf8.encode "/pz"))
    (Arrives.leads ⟨40, by decide +kernel⟩) (fun d leads => ?_) fun f there placed t leads => ?_
  · obtain rfl := place_of_leadsTo linkless (by decide) leads
    decide
  · obtain rfl : f = ⟨"b.lua", "lib/n/b.lua", .workingDir⟩ := by
      rcases List.mem_cons.1 there with rfl | there
      · simp at placed
      · simpa using there
    obtain rfl := place_of_leadsTo linkless (by decide) leads
    decide

theorem destination_rebuilt_shipped :
    ∃ summary s', run shippedConfig zipArchiver 0 (.opening shippedGame) = .ok summary s' ∧
      s'.workshop.files.tree "/work/lib" =
        [("b42.jar", false), ("mods", true), ("mods/x.jar", false), ("n", true),
         ("n/b.lua", false)].map
          (fun (text, isDir) => (Utf8.encode text, isDir)) ∧
      ∃ d st jars, summary.prebuiltArchives = jars.length ∧
        ShippedTree shippedConfig jars d st s'.workshop.files := by
  have result : resultOf? (run shippedConfig zipArchiver 0 (.opening shippedGame)) =
      some ⟨"/work/lib/b42.jar", 1, ⟨1, 1⟩, 1, 0⟩ := by decide +kernel
  have left : (leftBy (run shippedConfig zipArchiver 0 (.opening shippedGame))).workshop.files.tree
      "/work/lib" = [("b42.jar", false), ("mods", true), ("mods/x.jar", false), ("n", true),
        ("n/b.lua", false)].map (fun (text, isDir) =>
          (Utf8.encode text, isDir)) := by decide +kernel
  obtain ⟨s', done⟩ := resultOf?_eq_some result
  rw [done, leftBy_ok] at left
  obtain ⟨d, st, jars, _, _, _, counted, _, tree, _⟩ :=
    destination_rebuilt (.of_absolute (by decide) (by decide) (by decide)) shippedConfig_clear done
  exact ⟨_, s', done, left, d, st, jars, counted, tree⟩

/-- A run whose working directory is written with steps up from a place that is in the output
directory. -/
def strayOutputConfig : Config :=
  { sourceRoot := "/pz", workingDir := "/work/lib/n/../..", auxFiles := [] }

theorem strayOutputConfig_clear : strayOutputConfig.Clear stockedGame := by
  have linkless : stockedGame.links = [] := by decide
  refine .of_links linkless (p := Path.spelled (Utf8.encode "/pz"))
    (Arrives.leads ⟨40, by decide⟩) (fun d leads => ?_) fun f there => by
      simp [strayOutputConfig] at there
  obtain rfl := place_of_leadsTo linkless (by decide) leads
  decide

/-- A game with a link that passes through the old output directory, itself a link. Without it, the
game's link leads to the new one. -/
def returningGame : FileSystem :=
  ([("/pz", .directory), ("/pz/l", linkTo "/work/lib/../lib"), ("/x", .directory),
    ("/x/y", .directory), ("/x/lib", .directory), ("/work", .directory),
    ("/work/lib", linkTo "/x/y")]
  : List (String × Entry)).foldl (fun fs (text, e) => fs.plant text e) (empty {})

theorem returningGame_reaches (reach : jarConfig.Reaches returningGame q) :
    Path.spelled (Utf8.encode "/pz") <+: q ∨ Path.spelled (Utf8.encode "/x/lib") <+: q := by
  have source : returningGame.LeadsTo (Utf8.encode "/pz") (Path.spelled (Utf8.encode "/pz")) :=
    Arrives.leads ⟨40, by decide⟩
  have onward : returningGame.Leads (Path.spelled (Utf8.encode "/pz"))
      [.name ⟨Utf8.encode "l", by decide⟩] (Path.spelled (Utf8.encode "/x/lib")) :=
    Leads.of_follow (by decide : returningGame.follow 40 _ _ = .ok ⟨_, 38⟩)
  exact reach.of_one_link source onward (by decide)

theorem jarConfig_clear : jarConfig.Clear returningGame := by
  have output : returningGame.LeadsTo jarConfig.destination (Path.spelled (Utf8.encode "/x/y")) :=
    Arrives.leads ⟨39, by decide⟩
  refine ⟨fun q d reach leads => ?_, fun f there => by simp [jarConfig] at there⟩
  obtain rfl := leads.unique output
  rcases returningGame_reaches reach with below | below
  · exact (Place.beside_of_below below (by decide)).symm
  · exact (Place.beside_of_below below (by decide)).symm

/-- The checks pass and before the run the output keeps off the source, yet in the output directory

* a directory is left that no file lies in: it was made only to step up from;
* the archive is found as a jar of the game, by way of the game's link, and copied, where before the
  run there was no jar. -/
theorem stray_directory_or_archive_as_jar :
    (strayOutputConfig.validate stockedGame = .ok () ∧ strayOutputConfig.Clear stockedGame ∧
      (resultOf? (run strayOutputConfig zipArchiver 0 (.opening stockedGame))).isSome = true ∧
      (leftBy (run strayOutputConfig zipArchiver 0 (.opening stockedGame))).workshop.files.tree
        "/work/lib" = [(Utf8.encode "b42.jar", false), (Utf8.encode "n", true)]) ∧
    (jarConfig.validate returningGame = .ok () ∧ jarConfig.Clear returningGame ∧
      resultOf? (findMatches jarConfig.sourceRoot .prebuiltArchives ⟨returningGame, [], []⟩) =
        some [] ∧
      (resultOf? (run jarConfig zipArchiver 0 (.opening returningGame))).map (·.prebuiltArchives) =
        some 1 ∧
      (leftBy (run jarConfig zipArchiver 0 (.opening returningGame))).workshop.files.tree
        "/work/lib" = [(Utf8.encode "b42.jar", false), (Utf8.encode "l", true),
          (Utf8.encode "l/b42.jar", false)]) := by
  refine ⟨⟨?_, strayOutputConfig_clear, ?_, ?_⟩, ?_, jarConfig_clear, ?_, ?_, ?_⟩ <;> decide +kernel

end ClassPack
