import ClassPack.Proofs.FileSystem.Planting
import ClassPack.Proofs.Phases

/-!
# StagedTree — what is in the staging directory when it is packed

* `Config.Reaches` — the places that can be reached from the source root, and `Config.Clear`: the
  output keeps off all of them;
* `StagedTree` — the staging directory holds the copies made, the last where several went to one
  place, the directories above them, and nothing else;
* `staged_tree_packed` — a run asks the archiver once at most, and then on such a tree. The texts
  have to be readable without the old output directory: `stray_directory_or_stale_copy_packed`.
-/

namespace ClassPack

open FileSystem

variable {c : Config} {a : Archiver} {elapsed : Nat} {s : Session} {start mid fs gs : FileSystem}
  {d p q st : Place} {w w' : Workshop} {steps : List Segment} {classes : List String}
  {report : AuxReport} {ds : List Copied} {copied : Copied}

/-! ## What can be reached -/

/-- The places at and below the source root, those at and below where their entries lead, and so on;
whether or not anything stands there. -/
inductive Config.Reaches (c : Config) (fs : FileSystem) : Place → Prop where
  | root {p : Place} : fs.LeadsTo (Utf8.encode c.sourceRoot) p → Reaches c fs p
  | inside {p : Place} (n : Name) : Reaches c fs p → Reaches c fs (p ++ [n])
  | onward {p q : Place} {n : Name} : Reaches c fs (p ++ [n]) → fs.Leads p [.name n] q →
    Reaches c fs q

namespace Config.Reaches

theorem of_prefix (h : c.Reaches fs p) (above : p <+: q) : c.Reaches fs q := by
  obtain ⟨r, rfl⟩ := above
  induction r generalizing p with
  | nil => simpa using h
  | cons n r ih => simpa using ih (.inside n h)

/-- Steps that never go up stay within reach. -/
theorem of_leads (h : c.Reaches fs p) (leads : fs.Leads p steps q) (noUp : Segment.up ∉ steps) :
    c.Reaches fs q := by
  induction steps generalizing p with
  | nil =>
      cases leads
      exact h
  | cons step rest ih =>
      have later : Segment.up ∉ rest := fun there => noUp (List.mem_cons_of_mem _ there)
      cases step with
      | here =>
          cases leads with
          | here leads => exact ih h leads later
      | up => exact absurd (List.mem_cons_self ..) noUp
      | name n =>
          -- The first name leads to its entry, or along the link that stands there.
          obtain ⟨m, first, onward⟩ := Leads.split (s := [.name n]) leads
          exact ih (.onward (.inside n h) first) onward later

theorem of_joinText {more : String} (descends : Path.Descends (Utf8.encode more))
    (leads : fs.LeadsTo (Utf8.encode (joinText c.sourceRoot more)) q) : c.Reaches fs q := by
  unfold LeadsTo at leads
  rw [encode_joinText, Path.origin_join descends.relative,
    Path.segments_join descends.relative] at leads
  obtain ⟨m, front, back⟩ := leads.split
  exact (Reaches.root front).of_leads back descends.noUp

/-- What holds of the source root, and stays so below a place and along links, holds of all that can
be reached. -/
theorem closed (within : Place → Prop) (h : c.Reaches fs q)
    (root : ∀ p, fs.LeadsTo (Utf8.encode c.sourceRoot) p → within p)
    (inside : ∀ p n, within p → within (p ++ [n]))
    (link : ∀ p n q, within (p ++ [n]) → p ++ [n] ∈ fs.links → fs.Leads p [.name n] q → within q) :
    within q := by
  induction h with
  | root leads => exact root _ leads
  | inside n _ ih => exact inside _ n ih
  | @onward p q n _ step ih =>
      cases step with
      | name _ stay =>
          -- No link: the step ends where it was.
          cases stay
          exact ih
      | link there back => exact link p n q ih (mem_links there) (.link there back)

/-- Of a source with one link, at its top, all that can be reached lies in the source or where that
link leads. -/
theorem of_one_link {n : Name} (h : c.Reaches fs q)
    (source : fs.LeadsTo (Utf8.encode c.sourceRoot) p) (onward : fs.Leads p [.name n] d)
    (links : ∀ t ∈ fs.links, t = p ++ [n] ∨ ¬ p <+: t ∧ ¬ d <+: t) : p <+: q ∨ d <+: q := by
  refine h.closed (fun q => p <+: q ∨
    d <+: q) (fun t leads => .inl (source.unique leads ▸ List.prefix_refl _))
    (fun t m => .imp (·.trans (List.prefix_append ..)) (·.trans (List.prefix_append ..)))
    fun t m q within there step => ?_
  rcases links _ there with here | aside
  · -- The source's own link.
    obtain ⟨rfl, last⟩ := List.append_inj' here rfl
    cases last
    exact .inr (onward.unique step ▸ List.prefix_refl _)
  · exact absurd within (not_or.2 aside)

end Config.Reaches

/-- The output keeps off the source: neither the output directory nor a file for the working
directory goes where the source reaches. -/
structure Config.Clear (c : Config) (fs : FileSystem) : Prop where
  output : ∀ q d, c.Reaches fs q → fs.LeadsTo c.destination d → ¬ d <+: q ∧ ¬ q <+: d
  delivered : ∀ f ∈ c.auxFiles, f.placement = .workingDir → ∀ t,
    fs.LeadsTo (Utf8.encode (joinText c.workingDir f.target)) t → ¬ c.Reaches fs t

/-! ## The tree -/

/-- The texts of all copies into the staging directory and the working directory, in turn. -/
def Config.copyTexts (c : Config) (classes : List String) : List (Path × Path) :=
  classes.map (fun path =>
      (Utf8.encode (joinText c.sourceRoot path),
        Utf8.encode (joinText c.layout.stagingDir path))) ++
    c.auxFiles.map fun f =>
      (Utf8.encode (joinText c.sourceRoot f.source),
        Utf8.encode (f.destination c.layout.stagingDir c.workingDir))

/-- The staging directory `st` as it is packed: `ds` are the copies of the class files and of the
manifest's files, and the directory holds what they left there and nothing else. -/
structure StagedTree (c : Config) (classes : List String) (ds : List Copied) (st : Place)
    (fs : FileSystem) : Prop where
  staging : fs.Arrives c.staging st
  texts : ds.map (fun d => (d.source, d.target)) = c.copyTexts classes
  /-- What was copied still stands where it was copied from. -/
  reads : ∀ d ∈ ds, fs.Arrives d.source d.origin ∧ fs.at? d.origin = some (.file d.content)
  arrives : ∀ d ∈ ds, fs.Arrives d.target d.place
  /-- A copy into the staging directory stands where its names say. -/
  place : ∀ d ∈ ds, ∀ more, Path.Descends (Utf8.encode more) →
    d.target = Utf8.encode (joinText c.layout.stagingDir more) →
      d.place = st ++ Segment.names (Path.segments (Utf8.encode more))
  self : fs.at? st = some .directory
  below : ∀ n r, fs.at? (st ++ n :: r) =
    match lastAt? (ds.map fun d => (d.place, d.content)) (st ++ n :: r) with
    | some content => some (.file content)
    | none => if ∃ d ∈ ds, st ++ n :: r <+: d.place then some .directory else none

/-- A file below the staging directory is a copy that was made. -/
theorem StagedTree.exists_copied {names : Place} {content : Content}
    (tree : StagedTree c classes ds st fs) (file : fs.at? (st ++ names) = some (.file content)) :
    ∃ e ∈ ds, e.place = st ++ names ∧ e.content = content := by
  cases names with
  | nil => simp [tree.self] at file
  | cons n r =>
      rw [tree.below] at file
      cases last : lastAt? (ds.map fun d => (d.place, d.content)) (st ++ n :: r) with
      | some content' =>
          obtain ⟨e, member, pair⟩ := List.mem_map.1 (mem_of_lastAt? last)
          obtain ⟨place, rfl⟩ := Prod.mk.inj pair
          exact ⟨e, member, place, by simpa [last] using file⟩
      | none =>
          rw [last] at file
          simp only at file
          split at file <;> simp at file

/-- Where a copy was made below the staging directory, there is a file. -/
theorem StagedTree.exists_file {names : Place} {e : Copied} (tree : StagedTree c classes ds st fs)
    (there : e ∈ ds) (place : e.place = st ++ names) (inner : names ≠ []) :
    ∃ content, fs.at? (st ++ names) = some (.file content) := by
  obtain ⟨content, last⟩ :=
    lastAt?_of_mem (List.mem_map_of_mem (f := fun e => (e.place, e.content)) there)
  obtain ⟨n, r, rfl⟩ := List.exists_cons_of_ne_nil inner
  refine ⟨content, ?_⟩
  rw [tree.below, ← place, last]

/-! ## Filling a directory that is clear of the source -/

namespace Config.Prepared

variable (h : c.Prepared start mid fs d st) (clear : c.Clear (c.cleared start))

include h clear

/-- Nothing at or below the output directory, nor above it, can be reached from the source root. -/
theorem aside_of_reaches (reach : c.Reaches (c.cleared start) q) : ¬ d <+: q ∧ ¬ q <+: d :=
  clear.output q d reach h.outer.leads

theorem at?_of_reaches (reach : c.Reaches (c.cleared start) q) :
    fs.at? q = (c.cleared start).at? q := by
  obtain ⟨notBelow, notAbove⟩ := h.aside_of_reaches clear reach
  have apart := (Place.beside_of_below h.below ⟨notBelow, notAbove⟩).2
  calc fs.at? q = mid.at? q := by rw [h.inner.raised.at?, if_neg apart]
    _ = (c.cleared start).at? q := by rw [h.outer.raised.at?, if_neg notAbove]

/-- No copy into the staging directory goes to a place that can be reached. -/
theorem not_reaches_of_staging (grown : mid.Grows gs) {more : String}
    (descends : Path.Descends (Utf8.encode more))
    (leads : gs.LeadsTo (Utf8.encode (joinText c.layout.stagingDir more)) q) :
    ¬ c.Reaches (c.cleared start) q := fun reach => by
  obtain rfl := h.place_of_leadsTo_staging grown descends leads
  exact (h.aside_of_reaches clear reach).1 (h.below.trans (List.prefix_append ..))

/-- No file of the manifest goes to such a place. -/
theorem not_reaches_of_destination (grown : mid.Grows gs) {f : AuxFile} (there : f ∈ c.auxFiles)
    (leads : gs.LeadsTo (Utf8.encode (f.destination c.layout.stagingDir c.workingDir)) q) :
    ¬ c.Reaches (c.cleared start) q := by
  cases placed : f.placement with
  | staged =>
      simp only [AuxFile.destination, placed] at leads
      exact h.not_reaches_of_staging clear grown (h.sound.target f there) leads
  | workingDir =>
      simp only [AuxFile.destination, placed] at leads
      exact clear.delivered f there placed q ((h.bare_grows grown).leadsTo_iff.1 leads)

/-- No file of the manifest is its own target. -/
theorem isSameFile_eq_false (grown : mid.Grows gs) {f : AuxFile} (there : f ∈ c.auxFiles) :
    isSameFile gs (joinText c.sourceRoot f.source)
      (f.destination c.layout.stagingDir c.workingDir) =
      false := by
  by_contra same
  obtain ⟨q, source, target, _⟩ := arrives_of_isSameFile (by simpa using same)
  exact h.not_reaches_of_destination clear grown there target
    (.of_joinText (h.sound.source f there) ((h.bare_grows grown).leadsTo_iff.1 source))

end Config.Prepared

theorem mem_copyTexts {source target : Path} (h : (source, target) ∈ c.copyTexts classes) :
    (∃ path ∈ classes, source = Utf8.encode (joinText c.sourceRoot path) ∧
        target = Utf8.encode (joinText c.layout.stagingDir path)) ∨
      ∃ f ∈ c.auxFiles, source = Utf8.encode (joinText c.sourceRoot f.source) ∧
        target = Utf8.encode (f.destination c.layout.stagingDir c.workingDir) := by
  rcases List.mem_append.1 h with found | listed
  · obtain ⟨path, there, same⟩ := List.mem_map.1 found
    obtain ⟨source, target⟩ := Prod.mk.inj same
    exact .inl ⟨path, there, source.symm, target.symm⟩
  · obtain ⟨f, there, same⟩ := List.mem_map.1 listed
    obtain ⟨source, target⟩ := Prod.mk.inj same
    exact .inr ⟨f, there, source.symm, target.symm⟩

/-- All copies of a step that goes well, made from what the source reaches to places out of its
reach. -/
theorem Config.Prepared.copies (h : c.Prepared start mid w.files d st)
    (clear : c.Clear (c.cleared start)) (fill : fillStaging c w = .ok (classes, report) w') :
    ∃ ds, (∃ w₁, findMatches c.sourceRoot .classFiles w = .ok classes w₁) ∧
      report = .ofManifest c.auxFiles ∧ Copies ds w.files w'.files ∧
      ds.map (fun d => (d.source, d.target)) = c.copyTexts classes := by
  obtain ⟨w₁, found, all, counted⟩ := fillStaging_ok fill
  obtain ⟨search, ds₁, copies₁, texts₁⟩ := collect_ok found
    (h.anchored.sourceRoot.of_within (h.bare_grows h.grows).toWithin)
    ((h.steady h.grows).joinText h.sound.stagingDir)
  have grown := h.grows.trans copies₁.grows
  obtain ⟨ds₂, copies₂, texts₂⟩ := copyAuxFiles_copies all
    (fun f there => h.starts_source grown there) (fun f there => h.steady_destination grown there)
    fun f there fs more => h.isSameFile_eq_false clear (grown.trans more) there
  refine ⟨ds₁ ++ ds₂, search, counted, copies₁.append copies₂, ?_⟩
  rw [List.map_append, texts₁, texts₂]
  rfl

section Copied

variable (h : c.Prepared start mid fs d st)
  (found : ∀ path ∈ classes, Path.Descends (Utf8.encode path)) (grown : mid.Grows gs)
  (listed : (copied.source, copied.target) ∈ c.copyTexts classes)

include h found grown listed

theorem Config.Prepared.starts_of_copyTexts :
    gs.Starts copied.source ∧ gs.Starts copied.target := by
  rcases mem_copyTexts listed with ⟨path, there, source, target⟩ | ⟨f, there, source, target⟩
  · have root := h.anchored.sourceRoot.of_within (h.bare_grows grown).toWithin
    have staging := (h.steady grown).joinText h.sound.stagingDir
    exact ⟨source ▸ root.joinText (found path there),
      target ▸ (staging.joinText (found path there)).starts⟩
  · exact ⟨source ▸ h.starts_source grown there, target ▸ (h.steady_destination grown there).starts⟩

theorem Config.Prepared.reaches_of_copyTexts (leads : gs.LeadsTo copied.source q) :
    c.Reaches (c.cleared start) q := by
  have leads := (h.bare_grows grown).leadsTo_iff.1 leads
  rcases mem_copyTexts listed with ⟨path, there, source, _⟩ | ⟨f, there, source, _⟩
  · exact .of_joinText (found path there) (source ▸ leads)
  · exact .of_joinText (h.sound.source f there) (source ▸ leads)

theorem Config.Prepared.not_reaches_of_copyTexts (clear : c.Clear (c.cleared start))
    (leads : gs.LeadsTo copied.target q) :
    ¬ c.Reaches (c.cleared start) q := by
  rcases mem_copyTexts listed with ⟨path, there, _, target⟩ | ⟨f, there, _, target⟩
  · exact h.not_reaches_of_staging clear grown (found path there) (target ▸ leads)
  · exact h.not_reaches_of_destination clear grown there (target ▸ leads)

end Copied

/-- What the copies leave, and that they change nothing within reach of the source root. -/
theorem Config.Prepared.stagedTree (h : c.Prepared start mid fs d st)
    (clear : c.Clear (c.cleared start)) (copies : Copies ds fs gs)
    (texts : ds.map (fun d => (d.source, d.target)) = c.copyTexts classes)
    (found : ∀ path ∈ classes, Path.Descends (Utf8.encode path)) : StagedTree c classes ds st gs ∧
      ∀ q, c.Reaches (c.cleared start) q → gs.at? q = (c.cleared start).at? q := by
  have grown : mid.Grows gs := h.grows.trans copies.grows
  have listed : ∀ d ∈ ds, (d.source, d.target) ∈ c.copyTexts classes := fun d there =>
    texts ▸ List.mem_map_of_mem there
  have arrives : ∀ d ∈ ds, gs.Arrives d.source d.origin ∧
      gs.Arrives d.target d.place := fun d there =>
    copies.arrives_of_mem there (h.starts_of_copyTexts found h.grows (listed d there))
  have beyond : ∀ d ∈ ds, ¬ c.Reaches (c.cleared start) d.place := fun d there =>
    h.not_reaches_of_copyTexts found grown (listed d there) clear (arrives d there).2.leads
  refine ⟨⟨?_, texts, ?_, fun d there => (arrives d there).2, ?_, ?_, ?_⟩, fun q reach => ?_⟩
  · have steady := (h.steady h.grows).joinText h.sound.stagingDir
    exact h.inner.arrives.of_within copies.grows.toWithin steady.starts
  · -- No copy went to where another one comes from.
    intro d there
    have reach := h.reaches_of_copyTexts found grown (listed d there) (arrives d there).1.leads
    have other : ∀ e ∈ ds, e.place ≠ d.origin := fun e there' same => beyond e there' (same ▸ reach)
    exact ⟨(arrives d there).1, (copies.file_iff other).2 (copies.origin_of_mem there other)⟩
  · intro d there more descends target
    exact h.place_of_leadsTo_staging grown descends (target ▸ (arrives d there).2.leads)
  · exact copies.grows.directory h.inner.at?_self
  · intro n r
    have left := copies.at?_eq (st ++ n :: r)
    rw [h.inner.at?_below] at left
    exact left
  · calc gs.at? q = fs.at? q :=
          copies.at?_untouched fun d there above => beyond d there (reach.of_prefix above)
      _ = (c.cleared start).at? q := h.at?_of_reaches clear reach

/-- A step that fills the staging directory leaves what is to be packed. -/
theorem stagedTree_of_filled (filled : c.Filled w classes report w') (anchored : c.Anchored w.files)
    (clear : c.Clear (c.cleared w.files)) :
    ∃ w₁ w₂ ds st, prepare c w = .ok () w₁ ∧ findMatches c.sourceRoot .classFiles w₁ =
      .ok classes w₂ ∧ report = .ofManifest c.auxFiles ∧ StagedTree c classes ds st w'.files ∧
        ∀ q, c.Reaches (c.cleared w.files) q → w'.files.at? q = (c.cleared w.files).at? q := by
  obtain ⟨accepted, w₁, made, fill⟩ := filled
  obtain ⟨mid, d, st, prepared⟩ := prepare_ok made (Config.sound_of_validate accepted) anchored
  obtain ⟨ds, ⟨w₂, search⟩, counted, copies, texts⟩ := prepared.copies clear fill
  obtain ⟨tree, reached⟩ := prepared.stagedTree clear copies texts fun path there =>
    descends_of_relative (relative_of_findMatches search path there)
  exact ⟨w₁, w₂, ds, st, made, search, counted, tree, reached⟩

/-! ## Packing -/

/-- Either a run fails before anything is packed, or it asks the archiver exactly once, for the
staging directory and the archive. By then the staging directory holds the class files found in the
source root and the manifest's files, all as they are in the source root, and nothing else; and so
the summary counts them. -/
theorem staged_tree_packed (anchored : c.Anchored s.workshop.files)
    (clear : c.Clear (c.cleared s.workshop.files)) :
    ((leftBy (run c a elapsed s)).requests = s.requests ∧
        ∀ summary s', run c a elapsed s ≠ .ok summary s') ∨
      ∃ w₁ w₂ classes ds st fs,
        prepare c s.workshop = .ok () w₁ ∧
        findMatches c.sourceRoot .classFiles w₁ = .ok classes w₂ ∧
        (leftBy (run c a elapsed s)).requests =
          s.requests ++ [⟨c.layout.stagingDir, c.layout.archivePath, fs⟩] ∧
        StagedTree c classes ds st fs ∧
        (∀ q, c.Reaches (c.cleared s.workshop.files) q →
          fs.at? q = (c.cleared s.workshop.files).at? q) ∧
        ∀ summary s', run c a elapsed s = .ok summary s' →
          summary.classFiles = classes.length ∧ summary.auxFiles = .ofManifest c.auxFiles := by
  obtain ⟨requests, asked, course⟩ := run_course c a elapsed s
  -- A run that goes well has asked for something.
  have unasked : requests = [] → (leftBy (run c a elapsed s)).requests = s.requests ∧
      ∀ summary s', run c a elapsed s ≠ .ok summary s' := by
    rintro rfl
    refine ⟨by simpa using asked, fun summary s' done => ?_⟩
    obtain ⟨_, _, w₂, _, _, _, _, _, requests, _⟩ := run_ok done
    rw [done, leftBy_ok, requests] at asked
    simp at asked
  generalize (leftBy (run c a elapsed s)).workshop.files = final at course
  cases course with
  | rejected _ => exact .inl (unasked rfl)
  | prepared _ => exact .inl (unasked rfl)
  | filled _ _ => exact .inl (unasked rfl)
  | @finished classes report w' filled =>
      obtain ⟨w₁, w₂, ds, st, made, search, counted, tree, reached⟩ :=
        stagedTree_of_filled filled anchored clear
      refine .inr ⟨w₁, w₂, classes, ds, st, w'.files, made, search, asked, tree, reached, ?_⟩
      intro summary s' done
      obtain ⟨_, _, _, _, _, filled', _, _, _, rfl⟩ := run_ok done
      obtain ⟨rfl, rfl, _⟩ := filled.unique filled'
      exact ⟨rfl, counted⟩

/-- A game with a class file and a file for the manifest. -/
def stockedGame : FileSystem :=
  (((empty {}).plant "/pz" .directory).plant "/pz/a.class" (holding "class")).plant
    "/pz/b.lua" (holding "lua")

/-- A run that puts the file into the archive and beside it. -/
def stockedConfig : Config :=
  { sourceRoot := "/pz", workingDir := "/work"
    auxFiles := [⟨"b.lua", "./c.lua", .staged⟩, ⟨"b.lua", "b.lua", .workingDir⟩] }

/-- Without links, all is clear if three places keep apart. -/
theorem Config.Clear.of_links (linkless : fs.links = [])
    (source : fs.LeadsTo (Utf8.encode c.sourceRoot) p)
    (output : ∀ d, fs.LeadsTo c.destination d → ¬ p <+: d ∧ ¬ d <+: p)
    (delivered : ∀ f ∈ c.auxFiles, f.placement = .workingDir → ∀ t,
      fs.LeadsTo (Utf8.encode (joinText c.workingDir f.target)) t → ¬ p <+: t) : c.Clear fs := by
  have below : ∀ {q}, c.Reaches fs q → p <+: q := fun reach =>
    reach.closed (p <+: ·) (fun q leads => source.unique leads ▸ List.prefix_refl _)
      (fun q n inside => inside.trans (List.prefix_append ..))
      fun q n _ _ there => by simp [linkless] at there
  refine ⟨fun q d reach leads => ?_, fun f there placed t leads reach => ?_⟩
  · exact (Place.beside_of_below (below reach) (output d leads)).symm
  · exact delivered f there placed t leads (below reach)

theorem stockedConfig_clear : stockedConfig.Clear (stockedConfig.cleared stockedGame) := by
  have linkless : (stockedConfig.cleared stockedGame).links = [] := by decide
  refine .of_links linkless (p := Path.spelled (Utf8.encode "/pz"))
    (Arrives.leads ⟨40, by decide⟩) (fun d leads => ?_) fun f there placed t leads => ?_
  · obtain rfl := place_of_leadsTo linkless (by decide) leads
    decide
  · obtain rfl : f = ⟨"b.lua", "b.lua", .workingDir⟩ := by
      rcases List.mem_cons.1 there with rfl | there
      · simp at placed
      · simpa using there
    obtain rfl := place_of_leadsTo linkless (by decide) leads
    decide

theorem staged_tree_packed_stocked :
    ∃ classes ds st fs,
      (leftBy (run stockedConfig zipArchiver 0 (.opening stockedGame))).requests =
        [⟨stockedConfig.layout.stagingDir, stockedConfig.layout.archivePath, fs⟩] ∧
      StagedTree stockedConfig classes ds st fs := by
  have asked : (leftBy (run stockedConfig zipArchiver 0 (.opening stockedGame))).requests.length =
      1 := by
    decide +kernel
  have packed :
      (_ ∧ ∀ summary s', run stockedConfig zipArchiver 0 (.opening stockedGame) ≠ .ok summary s') ∨
      _ :=
    staged_tree_packed (.of_absolute (by decide) (by decide) (by decide)) stockedConfig_clear
  rcases packed with ⟨unasked, _⟩ | ⟨_, _, classes, ds, st, fs, _, _, requests, tree, _⟩
  · rw [unasked] at asked
    simp [Session.opening] at asked
  · exact ⟨classes, ds, st, fs, requests, tree⟩

/-- A run whose working directory is written with steps up from a place that is in the
staging directory. -/
def strayConfig : Config :=
  { sourceRoot := "/pz", workingDir := "/work/lib/zc/n/../../..", stagingDirName := "zc",
    auxFiles := [] }

theorem strayConfig_clear : strayConfig.Clear stockedGame := by
  have linkless : stockedGame.links = [] := by decide
  refine .of_links linkless (p := Path.spelled (Utf8.encode "/pz"))
    (Arrives.leads ⟨40, by decide⟩) (fun d leads => ?_) fun f there => by
      simp [strayConfig] at there
  obtain rfl := place_of_leadsTo linkless (by decide) leads
  decide

/-- A game with a link that passes through the old output directory, itself a link. What the game's
link leads to changes when the old output directory goes. -/
def turningGame : FileSystem :=
  ([("/pz", .directory), ("/pz/l", linkTo "/work/lib/../data"), ("/pz/f.txt", holding "new"),
    ("/x", .directory), ("/x/y", .directory), ("/x/data", .directory),
    ("/work", .directory), ("/work/lib", linkTo "/x/y"), ("/work/data", .directory),
    ("/work/data/c.class", holding "old"), ("/work/f.txt", linkTo "data/c.class")]
  : List (String × Entry)).foldl (fun fs (text, e) => fs.plant text e) (empty {})

/-- A run that writes where the game's link leads without the old output directory. -/
def turningConfig : Config :=
  { sourceRoot := "/pz", workingDir := "/work", auxFiles := [.samePath "f.txt" .workingDir] }

/-- Before the run all that can be reached lies in the game or where its link leads. -/
theorem turningGame_reaches (reach : turningConfig.Reaches turningGame q) :
    Path.spelled (Utf8.encode "/pz") <+: q ∨ Path.spelled (Utf8.encode "/x/data") <+: q := by
  have source : turningGame.LeadsTo (Utf8.encode "/pz") (Path.spelled (Utf8.encode "/pz")) :=
    Arrives.leads ⟨40, by decide⟩
  have onward : turningGame.Leads (Path.spelled (Utf8.encode "/pz"))
      [.name ⟨Utf8.encode "l", by decide⟩] (Path.spelled (Utf8.encode "/x/data")) :=
    Leads.of_follow (by decide : turningGame.follow 40 _ _ = .ok ⟨_, 38⟩)
  exact reach.of_one_link source onward (by decide)

theorem turningConfig_clear : turningConfig.Clear turningGame := by
  have output : turningGame.LeadsTo turningConfig.destination (Path.spelled (Utf8.encode "/x/y")) :=
    Arrives.leads ⟨39, by decide⟩
  have delivered : turningGame.LeadsTo (Utf8.encode "/work/f.txt")
      (Path.spelled (Utf8.encode "/work/data/c.class")) :=
    Arrives.leads ⟨39, by decide⟩
  refine ⟨fun q d reach leads => ?_, fun f there _ t leads reach => ?_⟩
  · obtain rfl := leads.unique output
    rcases turningGame_reaches reach with below | below
    · exact (Place.beside_of_below below (by decide)).symm
    · exact (Place.beside_of_below below (by decide)).symm
  · obtain rfl : f = .samePath "f.txt" .workingDir := by simpa [turningConfig] using there
    obtain rfl := leads.unique delivered
    rcases turningGame_reaches reach with below | below
    · exact absurd below (by decide)
    · exact absurd below (by decide)

/-- The checks pass and before the run the output keeps off the source, yet

* a directory is packed that no file lies in: it was made only to step up from;
* a class file is packed that is none of the source root's, neither before the run nor now. -/
theorem stray_directory_or_stale_copy_packed :
    (strayConfig.validate stockedGame = .ok () ∧ strayConfig.Clear stockedGame ∧
      (leftBy (run strayConfig zipArchiver 0 (.opening stockedGame))).requests.map
          (·.files.tree strayConfig.layout.stagingDir) =
        [[(Utf8.encode "a.class", false), (Utf8.encode "n", true)]]) ∧
    (turningConfig.validate turningGame = .ok () ∧ turningConfig.Clear turningGame ∧
      turningGame.isFile (Utf8.encode "/pz/l/c.class") = false ∧
      (leftBy (run turningConfig zipArchiver 0 (.opening turningGame))).requests.map (fun r =>
          (r.files.holds "/work/lib/zombie_classes/l/c.class" "old",
            r.files.holds "/pz/l/c.class" "new")) =
        [(true, true)]) := by
  refine ⟨⟨?_, strayConfig_clear, ?_⟩, ?_, turningConfig_clear, ?_, ?_⟩ <;> decide +kernel

end ClassPack
