import ClassPack.Proofs.FileSystem.Planting
import ClassPack.Proofs.Phases

/-!
# SourceRoot — where a run may change anything, and why that is not in the source root

* `Config.Touches c fs q` — a place that a run can change: it belongs to the old output directory or
  to the new one, or a manifest entry for the working directory goes there;
* `run_touches` — every run, however it ends, leaves all other places as they were;
* `Config.Apart` — no such place lies in the source root;
* `source_root_untouched` — under a configuration that keeps apart, no run changes anything in the
  source root. The checks made before a run do not see to it: `source_root_touched`.
-/

namespace ClassPack

open FileSystem

variable {c : Config} {a : Archiver} {elapsed : Nat} {s : Session} {start mid fs : FileSystem}
  {d q st : Place} {w : Workshop}

/-! ## Where a run changes anything -/

/-- A place that a run can change. -/
inductive Config.Touches (c : Config) (fs : FileSystem) : Place → Prop where
  /-- What the text of the output directory names at first, and all below it. -/
  | old {d q : Place} : fs.Names c.destination d → d <+: q → Touches c fs q
  /-- The new output directory, and all below it. -/
  | inside {d q : Place} : (c.cleared fs).LeadsTo c.destination d → d <+: q → Touches c fs q
  /-- A directory made above the new output directory. -/
  | above {d q : Place} : (c.cleared fs).LeadsTo c.destination d → q <+: d →
      (c.cleared fs).at? q = none → Touches c fs q
  /-- A file for the working directory, or a directory made above it. -/
  | delivered {t q : Place} : c.Delivers fs t → q <+: t → (q = t ∨ (c.cleared fs).at? q = none) →
      Touches c fs q

theorem touches_of_cleared (c : Config) (fs : FileSystem) (q : Place) :
    (c.cleared fs).at? q = fs.at? q ∨ c.Touches fs q := by
  rcases (fs.without_tookAway c.destination).at? q with same | ⟨_, d, names, below, _⟩
  · exact .inl same
  · exact .inr (.old names below)

theorem touches_of_around (h : Around c.destination (c.cleared start) fs) (q : Place) :
    fs.at? q = start.at? q ∨ c.Touches start q := by
  rcases h.at? q with same | ⟨d, leads, near⟩
  · rw [same]
    exact touches_of_cleared c start q
  · rcases near with below | ⟨above, missing⟩
    · exact .inr (.inside leads below)
    · exact .inr (.above leads above missing)

namespace Config.Prepared

variable (h : c.Prepared start mid w.files d st)

include h

/-- Both directories were made without a change elsewhere. -/
theorem touches (q : Place) : w.files.at? q = start.at? q ∨ c.Touches start q := by
  rw [h.inner.raised.at?]
  split
  · rename_i above
    rcases List.prefix_or_prefix_of_prefix above h.below with higher | deeper
    · have same : w.files.at? q = mid.at? q := by
        rw [h.inner.raised.at?, if_pos above, h.outer.raised.at?, if_pos higher]
      have := touches_of_around h.outer.around q
      rwa [← same, h.inner.raised.at?, if_pos above] at this
    · exact .inr (.inside h.outer.leads deeper)
  · exact touches_of_around h.outer.around q

theorem fillStaging_touches (q : Place) :
    (leftBy (fillStaging c w)).files.at? q = start.at? q ∨ c.Touches start q := by
  have fills := h.fillStaging_fills rfl
  -- What is missing now was missing before, as the output directory is the only thing made since.
  have missing : w.files.at? q = none → (c.cleared start).at? q = none := fun missing => by
    by_contra there
    exact (h.bare_grows h.grows).toWithin.ne_none there missing
  rcases fills.at? q with same | ⟨new, _, t, toward, above⟩ | ⟨_, toward⟩
  · rw [same]
    exact h.touches q
  · rcases toward with inner | delivered
    · rcases List.prefix_or_prefix_of_prefix above (h.below.trans inner) with higher | deeper
      · exact absurd new (h.ne_none_of_above h.grows higher)
      · exact .inr (.inside h.outer.leads deeper)
    · exact .inr (.delivered delivered above (.inr (missing new)))
  · rcases toward with inner | delivered
    · exact .inr (.inside h.outer.leads (h.below.trans inner))
    · exact .inr (.delivered delivered (List.prefix_refl _) (.inl rfl))

end Config.Prepared

/-- However a run ends, it changes nothing but the old output directory, the new one, and the places
of files for the working directory. -/
theorem run_touches (anchored : c.Anchored s.workshop.files) (keeps : a.KeepsTo) (q : Place) :
    (leftBy (run c a elapsed s)).workshop.files.at? q = s.workshop.files.at? q ∨
      c.Touches s.workshop.files q := by
  obtain ⟨requests, _, course⟩ := run_course c a elapsed s
  generalize (leftBy (run c a elapsed s)).workshop.files = final at course
  cases course with
  | rejected _ => exact .inl rfl
  | prepared accepted =>
      exact touches_of_around (prepare_left (Config.sound_of_validate accepted) anchored) q
  | filled accepted made =>
      obtain ⟨mid, d, st, prepared⟩ := prepare_ok made (Config.sound_of_validate accepted) anchored
      exact prepared.fillStaging_touches q
  | finished filled =>
      obtain ⟨accepted, w₁, made, fill⟩ := filled
      obtain ⟨mid, d, st, prepared⟩ := prepare_ok made (Config.sound_of_validate accepted) anchored
      have fills := prepared.fillStaging_fills rfl
      have touches := prepared.fillStaging_touches q
      rw [fill, leftBy_ok] at fills touches
      rcases prepared.finish_left keeps (prepared.grows.trans fills.toGrows) q with same | below
      · rw [same]
        exact touches
      · exact .inr (.inside prepared.outer.leads below)

/-! ## The source root -/

/-- The output keeps apart from a directory: neither the old output directory nor the new one holds
it or lies in it, and every entry of the manifest that the working directory's text leads into it is
its own target. -/
structure Config.Apart (c : Config) (fs : FileSystem) (root : Place) : Prop where
  old : ∀ d, fs.Names c.destination d → ¬ root <+: d ∧ ¬ d <+: root
  new : ∀ d, (c.cleared fs).LeadsTo c.destination d → ¬ root <+: d ∧ ¬ d <+: root
  delivered : ∀ t, c.Delivers fs t → ¬ root <+: t

/-- What keeps apart is not touched. -/
theorem Config.Apart.not_touches {root : Place} (apart : c.Apart fs root) (inside : root <+: q) :
    ¬ c.Touches fs q := by
  intro touches
  cases touches with
  | old names below => exact (Place.beside_of_below inside (apart.old _ names)).2 below
  | inside leads below => exact (Place.beside_of_below inside (apart.new _ leads)).2 below
  | above leads above _ => exact (apart.new _ leads).1 (inside.trans above)
  | delivered toward above _ => exact apart.delivered _ toward (inside.trans above)

/-- However a run ends, it leaves every directory, file and link in the source root exactly as it
was, as long as the output keeps apart from it. -/
theorem source_root_untouched {root : Place} (anchored : c.Anchored s.workshop.files)
    (trusted : a.Trusted) (arrives : s.workshop.files.Arrives (Utf8.encode c.sourceRoot) root)
    (apart : ∀ p, s.workshop.files.Arrives (Utf8.encode c.sourceRoot) p →
      c.Apart s.workshop.files p) :
    ∀ q, root <+: q →
      (leftBy (run c a elapsed s)).workshop.files.at? q = s.workshop.files.at? q := by
  intro q inside
  exact (run_touches anchored trusted.keepsTo q).resolve_right
    ((apart root arrives).not_touches inside)

/-- A game with one class file. -/
def smallGame : FileSystem :=
  ((empty {}).plant "/pz" .directory).plant "/pz/a.class" (holding "class")

/-- A working directory beside the game. -/
def besideGame : FileSystem := smallGame.plant "/work" .directory

/-- A run there, with one file for the working directory. -/
def besideConfig : Config :=
  { sourceRoot := "/pz", workingDir := "/work", auxFiles := [⟨"a.class", "b.class", .workingDir⟩] }

theorem besideConfig_apart {root : Place} (arrives : besideGame.Arrives (Utf8.encode "/pz") root) :
    besideConfig.Apart besideGame root := by
  have linkless : besideGame.links = [] := by decide
  have cleared : (besideConfig.cleared besideGame).links = [] := by decide
  obtain rfl := place_of_leadsTo linkless (by decide) arrives.leads
  refine ⟨fun d names => ?_, fun d leads => ?_, fun t delivers => ?_⟩
  · obtain rfl := place_of_names linkless (by decide) names
    decide
  · obtain rfl := place_of_leadsTo cleared (by decide) leads
    decide
  · obtain ⟨f, listed, _, _, leads⟩ := delivers
    obtain rfl : f = ⟨"a.class", "b.class", .workingDir⟩ := by simpa [besideConfig] using listed
    obtain rfl := place_of_leadsTo cleared (by decide) leads
    decide

theorem source_root_untouched_beside :
    besideConfig.validate besideGame = .ok () ∧
      ∃ root, besideGame.Arrives (Utf8.encode "/pz") root ∧ ∀ q, root <+: q →
        (leftBy (run besideConfig zipArchiver 0 (.opening besideGame))).workshop.files.at? q =
          besideGame.at? q := by
  have arrives : besideGame.Arrives (Utf8.encode "/pz") (Path.spelled (Utf8.encode "/pz")) :=
    ⟨40, by decide⟩
  refine ⟨by decide, _, arrives, ?_⟩
  exact source_root_untouched (s := .opening besideGame)
    (.of_absolute (by decide) (by decide) (by decide)) .zip arrives fun _ => besideConfig_apart

/-! ## What the checks do not see -/

/-- A working directory beside the game, with a link in it. -/
def linkedGame (name target : String) : FileSystem := besideGame.plant name (linkTo target)

/-- The output directory is a link to the game, written with a slash at its end: the game is
taken away. -/
def slashConfig : Config :=
  { sourceRoot := "/pz", workingDir := "/work", outDir := "lib/", auxFiles := [] }

/-- The output directory lies behind a link to the game: it is made in there. -/
def behindConfig : Config :=
  { sourceRoot := "/pz", workingDir := "/work", outDir := "pz/lib", auxFiles := [] }

/-- The working directory's text steps up from a place in the game that is not there: it is made. -/
def steppingConfig : Config :=
  { sourceRoot := "/pz", workingDir := "/work/pz/x/../../work", auxFiles := [] }

/-- What a run leaves that makes the archive itself. -/
def leavings (c : Config) (fs : FileSystem) : FileSystem :=
  (leftBy (run c zipArchiver 0 (.opening fs))).workshop.files

/-- Runs that are accepted can take the source root's files away, and can make directories and
files in it. -/
theorem source_root_touched :
    (slashConfig.validate (linkedGame "/work/lib" "../pz") = .ok () ∧
      (linkedGame "/work/lib" "../pz").isFile (Utf8.encode "/pz/a.class") = true ∧
      (leavings slashConfig (linkedGame "/work/lib" "../pz")).isFile (Utf8.encode "/pz/a.class") =
        false) ∧
    (behindConfig.validate (linkedGame "/work/pz" "../pz") = .ok () ∧
      (linkedGame "/work/pz" "../pz").isDir (Utf8.encode "/pz/lib") = false ∧
      (leavings behindConfig (linkedGame "/work/pz" "../pz")).isDir (Utf8.encode "/pz/lib") =
        true) ∧
    -- A file for the working directory goes where a link leads to.
    (besideConfig.validate (linkedGame "/work/b.class" "../pz/b.class") = .ok () ∧
      (linkedGame "/work/b.class" "../pz/b.class").isFile (Utf8.encode "/pz/b.class") = false ∧
      (leavings besideConfig (linkedGame "/work/b.class" "../pz/b.class")).isFile
        (Utf8.encode "/pz/b.class") = true) ∧
    (steppingConfig.validate (linkedGame "/work/pz" "../pz") = .ok () ∧
      (linkedGame "/work/pz" "../pz").isDir (Utf8.encode "/pz/x") = false ∧
      (leavings steppingConfig (linkedGame "/work/pz" "../pz")).isDir (Utf8.encode "/pz/x") =
        true) := by
  decide +kernel

end ClassPack
