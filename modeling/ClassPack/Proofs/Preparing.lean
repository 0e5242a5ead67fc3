import ClassPack.Proofs.Accepted
import ClassPack.Proofs.Copying

/-!
# Preparing — the output directory and the staging directory made anew

* `Config.Anchored c fs` — the texts of a configuration can still be read once the old output
  directory is gone: the working directory's text steps up from places only that are there then;
* `Config.Prepared` — both directories were made anew, the one in the other: `prepare_ok`. What then
  still holds all that the output directory had when it was empty (`mid.Grows fs`) is read as
  before: `Prepared.leads`, `Prepared.arrives`, `Prepared.plain`;
* `prepare_left` — whatever comes of it, all that changes lies at the output directory, below it, or
  is a new directory above it.
-/

namespace ClassPack

open FileSystem

namespace Config

/-- The text of the output directory. -/
def destination (c : Config) : Path := Utf8.encode c.layout.destinationRoot

/-- The text of the staging directory. -/
def staging (c : Config) : Path := Utf8.encode c.layout.stagingDir

/-- The text of the archive. -/
def archive (c : Config) : Path := Utf8.encode c.layout.archivePath

theorem staging_eq (c : Config) :
    c.staging = Path.join c.destination (Utf8.encode c.stagingDirName) :=
  encode_joinText _ _

theorem archive_eq (c : Config) :
    c.archive = Path.join c.destination (Utf8.encode c.layout.archiveName) :=
  encode_joinText _ _

/-- What is left when the old output directory has been taken away. -/
def cleared (c : Config) (fs : FileSystem) : FileSystem := fs.without c.destination

/-- Once the old output directory is gone, the texts that a run reads from can still be read:
they start from a place that is there, and the working directory's text steps up from places only
that are there. -/
structure Anchored (c : Config) (fs : FileSystem) : Prop where
  workingDir : (c.cleared fs).Steady (Utf8.encode c.workingDir)
  sourceRoot : (c.cleared fs).Starts (Utf8.encode c.sourceRoot)

/-- From `start` on, the output directory `d` was made anew, and then the staging directory
`s` below it. -/
structure Prepared (c : Config) (start mid fs : FileSystem) (d s : Place) : Prop where
  sound : c.Sound
  anchored : c.Anchored start
  outer : Rebuilt c.destination d (c.cleared start) mid
  inner : Rebuilt c.staging s mid fs
  place : s = d ++ Segment.names (Path.segments (Utf8.encode c.stagingDirName))
  named : Segment.names (Path.segments (Utf8.encode c.stagingDirName)) ≠ []

end Config

variable {c : Config} {bare fs gs : FileSystem} {d s q : Place} {w w' : Workshop}
  {base more : String}

/-! ## Names below a directory -/

/-- Below a place without links, a joined text names what it leads to. -/
theorem FileSystem.Names.eq_of_join (h : fs.Names (Utf8.encode (joinText base more)) q)
    (leads : fs.LeadsTo (Utf8.encode base) d) (descends : Path.Descends (Utf8.encode more))
    (plain : ∀ r target, fs.at? (d ++ r) ≠ some (.link target))
    (named : Segment.names (Path.segments (Utf8.encode more)) ≠ []) :
    q = d ++ Segment.names (Path.segments (Utf8.encode more)) := by
  cases h with
  | through _ leads' =>
      have := leads.join descends plain
      rw [← encode_joinText] at this
      exact leads'.unique this
  | @entry before n dir steps _ front =>
      rw [encode_joinText, Path.segments_join descends.relative] at steps
      rw [encode_joinText, Path.origin_join descends.relative] at front
      rcases List.eq_nil_or_concat' (Path.segments (Utf8.encode more)) with none_ |
        ⟨first, last, split⟩
      · simp [none_] at named
      · -- The last step of the whole text is the last one of the joined part.
        rw [split, ← List.append_assoc] at steps
        obtain ⟨rfl, final⟩ := List.append_inj' steps rfl
        obtain rfl : last = .name n := by simpa using final
        have noUp : Segment.up ∉ first := fun up => descends.noUp (by rw [split]; simp [up])
        rw [split, front.unique (Leads.append leads (.of_plain plain noUp))]
        simp

/-! ## Anchored configurations -/

theorem FileSystem.starts_of_absolute {text : Path} (absolute : text.isAbsolute = true) :
    fs.Starts text := by
  simp [Starts, Path.origin, absolute]

/-- Absolute texts without steps up need nothing of the old output directory. -/
theorem Config.Anchored.of_absolute (workingDir : Path.isAbsolute (Utf8.encode c.workingDir) = true)
    (noUp : Segment.up ∉ Path.segments (Utf8.encode c.workingDir))
    (sourceRoot : Path.isAbsolute (Utf8.encode c.sourceRoot) = true) : c.Anchored fs where
  workingDir := ⟨starts_of_absolute workingDir, fun _ _ steps => absurd (by simp [steps]) noUp⟩
  sourceRoot := starts_of_absolute sourceRoot

theorem Config.Anchored.steady (anchored : c.Anchored fs) (sound : c.Sound) :
    (c.cleared fs).Steady c.destination :=
  anchored.workingDir.joinText sound.outDir

theorem mem_joinText {b : UInt8} (relative : Path.isAbsolute (Utf8.encode more) = false)
    (there : b ∈ Utf8.encode more) : b ∈ Utf8.encode (joinText base more) := by
  rw [encode_joinText]
  unfold Path.join
  rw [if_neg (by simp [relative])]
  split <;> simp [there]

theorem joinText_ne_nil (some_ : Utf8.encode more ≠ []) :
    Utf8.encode (joinText base more) ≠ [] := by
  rw [encode_joinText]
  exact Path.join_ne_nil _ some_

theorem Config.Sound.destination_ne_nil (sound : c.Sound) : c.destination ≠ [] :=
  joinText_ne_nil sound.outDir_ne_nil

theorem Config.Sound.staging_ne_nil (sound : c.Sound) : c.staging ≠ [] := by
  refine joinText_ne_nil fun none_ => ?_
  obtain ⟨part, there, _⟩ := sound.stagingDir_named
  simp [none_, Path.components, Path.pieces] at there

/-- In an output directory made anew there is no staging directory to be taken away. -/
theorem without_staging (rebuilt : Rebuilt c.destination d bare fs) (sound : c.Sound) :
    fs.without c.staging = fs := by
  by_cases zero : 0 ∈ Utf8.encode c.stagingDirName
  · exact without_of_zero (mem_joinText sound.stagingDir.relative zero)
  · have named := Path.names_ne_nil sound.stagingDir_named zero
    have away := fs.without_tookAway c.staging
    refine ext_at? (fun q => ?_) away.workingDir away.limits
    rcases away.at? q with same | ⟨_, e, names, _, there⟩
    · exact same
    · -- What the text names lies below the output directory, where nothing is.
      have here := names.eq_of_join rebuilt.arrives.leads sound.stagingDir rebuilt.plain named
      obtain ⟨n, r, split⟩ := List.exists_cons_of_ne_nil named
      rw [here, split, rebuilt.at?_below] at there
      simp at there

theorem prepare_ok (h : prepare c w = .ok () w') (sound : c.Sound) (anchored : c.Anchored w.files) :
    ∃ mid d s, c.Prepared w.files mid w'.files d s := by
  unfold prepare at h
  obtain ⟨_, w₀, logged, h⟩ := bind_eq_ok.1 h
  obtain ⟨_, w₁, first, second⟩ := bind_eq_ok.1 h
  have same := Work.files_of_log logged
  rw [← same] at anchored ⊢
  obtain ⟨d, outer⟩ := recreateDir_ok first sound.destination_ne_nil (anchored.steady sound)
  have untouched : w₁.files.without c.staging = w₁.files := without_staging outer sound
  have steady : w₁.files.Steady c.staging :=
    ((anchored.steady sound).of_within outer.raised.toWithin).joinText sound.stagingDir
  obtain ⟨s, inner⟩ := prepareStaging_ok second sound.staging_ne_nil (untouched.symm ▸ steady)
  have inner : Rebuilt c.staging s w₁.files w'.files := untouched ▸ inner
  have place := inner.leads.eq_of_join outer.arrives.leads sound.stagingDir outer.plain
  refine ⟨w₁.files, d, s, sound, anchored, outer, inner, place, fun none_ => ?_⟩
  -- Without a name of its own the staging directory would have been there before it was made.
  have missing := inner.missing
  rw [place, none_, List.append_nil, outer.at?_self] at missing
  simp at missing

/-- Whatever comes of it, all that changes lies at the output directory, below it, or is a new
directory above it. -/
theorem prepare_left (sound : c.Sound) (anchored : c.Anchored w.files) :
    Around c.destination (c.cleared w.files) (leftBy (prepare c w)).files := by
  unfold prepare
  obtain ⟨w₀, logged, same⟩ := Work.log_ok .debug s!"rebuilding {c.layout.destinationRoot}" w
  rw [bind_of_ok logged, ← same]
  rw [← same] at anchored
  have outer := recreateDir_left c.layout.destinationRoot w₀ (anchored.steady sound)
  cases first : recreateDir c.layout.destinationRoot w₀ with
  | error e w₁ =>
      rw [bind_of_error first]
      rwa [first] at outer
  | ok _ w₁ =>
      rw [bind_of_ok first]
      obtain ⟨d, rebuilt⟩ := recreateDir_ok first sound.destination_ne_nil (anchored.steady sound)
      have untouched : w₁.files.without c.staging = w₁.files := without_staging rebuilt sound
      have steady : w₁.files.Steady c.staging :=
        ((anchored.steady sound).of_within rebuilt.raised.toWithin).joinText sound.stagingDir
      have inner :=
        prepareStaging_left c.layout.stagingDir w₁ sound.staging_ne_nil (untouched.symm ▸ steady)
      have inner : Around c.staging w₁.files
          (leftBy (prepareStaging c.layout.stagingDir w₁)).files :=
        untouched ▸ inner
      refine ⟨inner.workingDir.trans rebuilt.around.workingDir,
        inner.limits.trans rebuilt.around.limits, ?_⟩
      intro q
      rcases inner.at? q with same | ⟨s, leads, near⟩
      · rw [same]
        exact rebuilt.around.at? q
      · have place := leads.eq_of_join rebuilt.arrives.leads sound.stagingDir rebuilt.plain
        have below : d <+: s := place ▸ List.prefix_append ..
        refine .inr ⟨d, rebuilt.leads, .inl ?_⟩
        rcases near with under | ⟨above, missing⟩
        · exact below.trans under
        · -- What is above the output directory is there already.
          rcases List.prefix_or_prefix_of_prefix above below with higher | deeper
          · have there : w₁.files.at? q = some .directory := by
              rw [rebuilt.raised.at?, if_pos higher]
            simp [there] at missing
          · exact deeper

namespace Config.Prepared

variable {start mid : FileSystem}

theorem grows (h : c.Prepared start mid fs d s) : mid.Grows fs := h.inner.raised.toGrows

theorem below (h : c.Prepared start mid fs d s) : d <+: s := h.place ▸ List.prefix_append ..

section Later

variable (h : c.Prepared start mid fs d s) (grown : mid.Grows gs)

include h grown

theorem bare_grows : (c.cleared start).Grows gs := h.outer.raised.toGrows.trans grown

theorem steady : gs.Steady c.destination :=
  (h.anchored.steady h.sound).of_within (h.bare_grows grown).toWithin

theorem arrives : gs.Arrives c.destination d :=
  h.outer.arrives.of_within grown.toWithin ((h.steady (.refl _)).starts)

theorem leads : gs.LeadsTo c.destination d := (h.arrives grown).leads

theorem there : gs.at? d = some .directory := grown.directory h.outer.at?_self

theorem ne_none_of_above (above : q <+: d) : gs.at? q ≠ none :=
  at?_ne_none_of_above (by simp [h.there grown]) above

theorem plain (r : Place) (target : Path) : gs.at? (d ++ r) ≠ some (.link target) := fun isLink =>
  h.outer.plain r target (grown.noLink isLink)

theorem leads_staging : gs.LeadsTo c.staging s := by
  rw [c.staging_eq, h.place]
  exact (h.leads grown).join h.sound.stagingDir (h.plain grown)

theorem plain_staging (r : Place) (target : Path) : gs.at? (s ++ r) ≠ some (.link target) := by
  rw [h.place, List.append_assoc]
  exact h.plain grown _ target

end Later

end Config.Prepared
end ClassPack
