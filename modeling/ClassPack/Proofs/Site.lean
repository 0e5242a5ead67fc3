import ClassPack.Proofs.Delivering
import ClassPack.Proofs.Rebuilding

/-!
# Site — where a run is expected to go well

* `Config.Site` — an empty working directory, and beside it a game without links that has the
  manifest's files; names and texts may be of any length. `Config.LinklessSite` is such a site, if
  there are no links at all, in a form that can be computed;
* the shipped manifest, by what its names are (`defaultManifest_names`) and how they lie to each
  other (`defaultManifest_level`);
* `Config.AtSite` — an accepted configuration with that manifest at such a site. There is no old
  output to be taken away, and the output keeps off the source: `AtSite.cleared_eq`, `AtSite.clear`.
  Where things are put can be read off the texts: `AtSite.place_staging`, `AtSite.place_of_sentTo`;
  and so can what is found: `AtSite.mem_classes_iff`.
-/

namespace ClassPack

open FileSystem

/-- The names that a text asks for. -/
abbrev namesOf (text : String) : Place := Segment.names (Path.segments (Utf8.encode text))

variable {c : Config} {start mid fs gs : FileSystem} {S W d q st t : Place} {w w' : Workshop}
  {names names' : Place} {path ext : String} {f g : AuxFile} {classes jars : List String}

theorem namesOf_eq (spelled : Utf8.encode path = names.relativePath) : namesOf path = names := by
  rw [namesOf, spelled, Path.segments_relativePath, Segment.names_map_name]

theorem Place.EndsIn.exists_suffix (ends : names.EndsIn ext) :
    ∃ n ∈ names, Utf8.encode ext <:+ n.bytes := by
  obtain ⟨stem, n, last, bytes⟩ := ends
  exact ⟨n, List.mem_of_getLast? last, by simp [bytes]⟩

/-- A file is not above anything else. -/
theorem FileSystem.eq_of_file_above {content : Content} (file : fs.at? t = some (.file content))
    (stands : fs.at? q ≠ none) (above : t <+: q) : t = q := by
  by_contra other
  simp [at?_of_above stands above other] at file

/-! ## Sites -/

/-- Where a run is expected to go well: the source root `S` is a tree of directories and regular
files, with those of the manifest, and beside it is the working directory `W`, which is empty.
Nothing is too long, and no zero byte is in the names that are chosen. -/
structure Config.Site (c : Config) (fs : FileSystem) (S W : Place) : Prop where
  unbounded : fs.Unbounded
  current : fs.at? fs.workingDir = some .directory
  source : fs.Arrives (Utf8.encode c.sourceRoot) S
  working : fs.Arrives (Utf8.encode c.workingDir) W
  source_directory : fs.at? S = some .directory
  working_directory : fs.at? W = some .directory
  empty : ∀ n, fs.at? (W ++ [n]) = none
  plain : ∀ r target, fs.at? (S ++ r) ≠ some (.link target)
  beside : ¬ S <+: W ∧ ¬ W <+: S
  files : ∀ f ∈ c.auxFiles, ∃ content, fs.at? (S ++ namesOf f.source) = some (.file content)
  noZero : 0 ∉ Utf8.encode c.outDir ∧ 0 ∉ Utf8.encode c.stagingDirName ∧
    0 ∉ Utf8.encode c.layout.archiveName

/-- A site without any links, looked up entry by entry. -/
def Config.LinklessSite (c : Config) (fs : FileSystem) (S W : Place) : Prop :=
  fs.links = [] ∧ (fs.limits.name = none ∧ fs.limits.path = none) ∧
    (fs.isDirectoryAt fs.workingDir = true ∧ fs.isDirectoryAt S = true ∧
      fs.isDirectoryAt W = true) ∧
    fs.resolve (Utf8.encode c.sourceRoot) = .ok ⟨S, fs.limits.links⟩ ∧
    fs.resolve (Utf8.encode c.workingDir) = .ok ⟨W, fs.limits.links⟩ ∧
    (fs.children W).isEmpty = true ∧ (¬ S <+: W ∧ ¬ W <+: S) ∧
    (∀ f ∈ c.auxFiles, (fs.at? (S ++ namesOf f.source)).isSome = true ∧
      fs.isDirectoryAt (S ++ namesOf f.source) = false) ∧
    0 ∉ Utf8.encode c.outDir ∧ 0 ∉ Utf8.encode c.stagingDirName ∧
    0 ∉ Utf8.encode c.layout.archiveName

instance : Decidable (c.LinklessSite fs S W) := by unfold Config.LinklessSite; infer_instance

theorem Config.LinklessSite.site (h : c.LinklessSite fs S W) : c.Site fs S W := by
  obtain ⟨linkless, unbounded, ⟨current, atSource, atWorking⟩, source, working, empty, beside,
    files, noZero⟩ := h
  refine ⟨⟨unbounded.1, unbounded.2⟩, isDirectoryAt_iff.1 current, ⟨_, source⟩, ⟨_, working⟩,
    isDirectoryAt_iff.1 atSource, isDirectoryAt_iff.1 atWorking, fun n => ?_, fun r =>
      plain_of_links linkless _, beside, fun f there => ?_, noZero⟩
  · refine Option.eq_none_iff_forall_not_mem.2 fun e there => ?_
    have child : (n, e) ∈ fs.children W := mem_children.2 there
    simp [List.isEmpty_iff.1 empty] at child
  · obtain ⟨stands, noDir⟩ := files f there
    obtain ⟨entry, present⟩ := Option.isSome_iff_exists.1 stands
    cases entry with
    | file content => exact ⟨content, present⟩
    | directory => simp [isDirectoryAt_iff.2 present] at noDir
    | link target => exact absurd present (plain_of_links linkless _ target)

namespace Config.Site

variable (site : c.Site start S W)

include site

theorem starts (text : Path) : start.Starts text := by
  unfold Starts Path.origin
  split
  · simp
  · simp [site.current]

/-- Nothing lies below the working directory. -/
theorem at?_below (n : Name) (r : Place) : start.at? (W ++ n :: r) = none := by
  rw [show W ++ n :: r = W ++ [n] ++ r by simp]
  exact at?_append_of_missing (site.empty n) r

theorem passable (r : Place) : start.Passable (W ++ r) :=
  .of_empty site.working_directory site.empty r

theorem plain_working (r : Place) (target : Path) : start.at? (W ++ r) ≠ some (.link target) :=
    fun isLink => by
  rcases site.passable r _ (List.prefix_refl _) with missing | directory
  · simp [isLink] at missing
  · simp [isLink] at directory

theorem steady_working : start.Steady (Utf8.encode c.workingDir) :=
  site.working.steady (site.starts _)

theorem zero_not_mem_working : 0 ∉ Utf8.encode c.workingDir := fun zero => by
  obtain ⟨links, resolved⟩ := site.working
  obtain ⟨fit, _⟩ := resolve_eq_ok_iff.1 resolved
  simp [FileSystem.vet, zero] at fit

/-- What the working directory's text is joined to leads into it. -/
theorem place_of_leadsTo {more : String} (descends : Path.Descends (Utf8.encode more))
    (leads : start.LeadsTo (Utf8.encode (joinText c.workingDir more)) t) : t = W ++ namesOf more :=
  leads.eq_of_join site.working.leads descends site.plain_working

/-- Places in the source root and in the working directory are beside each other. -/
theorem aside {r r' : Place} : ¬ S ++ r <+: W ++ r' ∧ ¬ W ++ r' <+: S ++ r :=
  (Place.beside_of_below (List.prefix_append W r')
    (Place.beside_of_below (List.prefix_append S r) site.beside |>.symm)).symm

/-- Nothing else can be reached from the source root. -/
theorem below_of_reaches (reach : c.Reaches start q) : ∃ r, S ++ r = q := by
  induction reach with
  | root leads => exact ⟨[], by simpa using site.source.leads.unique leads⟩
  | @inside p n _ ih =>
      obtain ⟨r, rfl⟩ := ih
      exact ⟨r ++ [n], by simp⟩
  | @onward p q n _ step ih =>
      cases step with
      | name _ stay =>
          cases stay
          exact ih
      | @link _ _ _ target _ there _ =>
          obtain ⟨r, same⟩ := ih
          exact absurd (same ▸ there) (site.plain r target)

theorem reaches_below (r : Place) : c.Reaches start (S ++ r) :=
  Config.Reaches.of_prefix (.root site.source.leads) (List.prefix_append S r)

/-! ### What is found -/

/-- What is shown is a file of the source root. -/
theorem file_of_shows (shown : Shows start c.sourceRoot ext path names) :
    ∃ content, start.at? (S ++ names) = some (.file content) :=
  (leadsToFile_iff_of_plain site.source site.plain).1 shown.leads

omit site in
/-- Files of the source root are level. -/
theorem level (file : ∃ content, start.at? (S ++ names) = some (.file content))
    (file' : ∃ content, start.at? (S ++ names') = some (.file content)) :
    Place.Level names names' := by
  have below : ∀ {r r' : Place}, (∃ content, start.at? (S ++ r) = some (.file content)) →
      (∃ content, start.at? (S ++ r') = some (.file content)) → r <+: r' → r = r' := by
    rintro r r' ⟨content, file⟩ ⟨content', file'⟩ above
    exact List.append_cancel_left (eq_of_file_above file (by simp [file'])
      ((List.prefix_append_right_inj S).2 above))
  exact ⟨below file file', fun above => (below file' file above).symm⟩

section Later

variable (grown : start.Grows gs) (same : ∀ r, gs.at? (S ++ r) = start.at? (S ++ r))

include grown same

/-- As long as the source root is as it was, the same is shown. -/
theorem shows_iff :
    Shows gs c.sourceRoot ext path names ↔ Shows start c.sourceRoot ext path names := by
  have plain : ∀ r target, gs.at? (S ++ r) ≠ some (.link target) := fun r target =>
    same r ▸ site.plain r target
  have leads : gs.LeadsToFile (Utf8.encode c.sourceRoot) names ↔
      start.LeadsToFile (Utf8.encode c.sourceRoot) names := by
    rw [leadsToFile_iff_of_plain (site.source.of_within grown.toWithin (site.starts _)) plain,
      leadsToFile_iff_of_plain site.source site.plain, same]
  exact ⟨fun shown => { shown with leads := leads.1 shown.leads },
    fun shown => { shown with leads := leads.2 shown.leads }⟩

/-- It can be searched, too. -/
theorem search_done {pattern : ArtifactPattern} {selector : Selector} (files : w.files = gs)
    (compiled : pattern.compile = .ok selector) :
    ∃ paths w', findMatches c.sourceRoot pattern w = .ok paths w' := by
  subst files
  have within := grown.toWithin
  refine findMatches_done (site.unbounded.of_within within)
    (site.source.of_within within (site.starts _)) (within.directory site.source_directory)
    (fun r target => ?_) compiled
  rw [same]
  exact site.plain r target

end Later

/-- A file of the source root can be read from then on. -/
theorem reads (grown : start.Grows gs) (inner : names ≠ [])
    (spelled : Utf8.encode path = names.relativePath)
    (file : ∃ content, start.at? (S ++ names) = some (.file content)) :
    ∃ p content, gs.Arrives (Utf8.encode (joinText c.sourceRoot path)) p ∧
      gs.at? p = some (.file content) := by
  have leads := (leadsToFile_iff_of_plain site.source site.plain).2 file
  obtain ⟨p, content, arrive, file⟩ := leads.arrives inner (site.unbounded.takes _).path
  obtain ⟨content', file'⟩ := grown.file file
  rw [← spelled, ← encode_joinText] at arrive
  exact ⟨p, content', arrive.of_within grown.toWithin (site.starts _), file'⟩

end Config.Site

/-! ## The shipped manifest -/

section DefaultManifest

/-- The texts of the shipped manifest spell names, and every file keeps its path. -/
theorem defaultManifest_spelled (there : f ∈ defaultManifest) :
    f.target = f.source ∧ namesOf f.source ≠ [] ∧
      Utf8.encode f.source = (namesOf f.source).relativePath ∧
      ∀ n ∈ namesOf f.source, n.text?.isSome = true := by
  revert f
  decide

/-- None of the names of the files for the working directory could be that of a class file, of a jar
or of an archive. -/
theorem defaultManifest_names (there : f ∈ defaultManifest) (placed : f.placement = .workingDir) :
    ∀ n ∈ namesOf f.target, ¬ Utf8.encode ".class" <:+ n.bytes ∧ ¬ Utf8.encode ".jar" <:+ n.bytes ∧
      n.bytes.head? ≠ some 0x62 := by
  revert f
  decide

/-- Files for the working directory are level with each other, and a staged one has a single name
that is in none of them. -/
theorem defaultManifest_level :
    ∀ f ∈ defaultManifest, f.placement = .workingDir → ∀ g ∈ defaultManifest,
    (g.placement = .workingDir → Place.Level (namesOf f.target) (namesOf g.target)) ∧
      (g.placement = .staged →
        (namesOf g.target).length = 1 ∧ ∀ n ∈ namesOf g.target, n ∉ namesOf f.target) := by
  decide

/-- There is one staged file. -/
theorem defaultManifest_staged :
    ∀ f ∈ defaultManifest, f.placement = .staged → ∀ g ∈ defaultManifest,
    g.placement = .staged → f = g := by
  decide

end DefaultManifest

/-! ## What is put where -/

/-- Where a file of the manifest goes, as seen from the working directory. -/
def Config.targetNames (c : Config) (f : AuxFile) : Place :=
  match f.placement with
  | .staged => namesOf c.outDir ++ namesOf c.stagingDirName ++ namesOf f.target
  | .workingDir => namesOf f.target

theorem Config.targetNames_of_staged (placed : f.placement = .staged) :
    c.targetNames f = namesOf c.outDir ++ namesOf c.stagingDirName ++ namesOf f.target := by
  rw [targetNames, placed]

theorem Config.targetNames_of_workingDir (placed : f.placement = .workingDir) :
    c.targetNames f = namesOf f.target := by
  rw [targetNames, placed]

/-- The files that a run puts into the staging directory, by their names as seen from there: the
class files that are found, and the files of the manifest that go there. -/
inductive Config.StagesFile (c : Config) (fs : FileSystem) (S : Place) :
    Place → Content → Prop where
  | classFile {path : String} {names : Place} {content : Content} :
      Shows fs c.sourceRoot ".class" path names → fs.at? (S ++ names) = some (.file content) →
        StagesFile c fs S names content
  | auxFile {f : AuxFile} {names : Place} {content : Content} :
      f ∈ c.auxFiles → c.targetNames f = namesOf c.outDir ++ namesOf c.stagingDirName ++ names →
        names ≠ [] → fs.at? (S ++ namesOf f.source) = some (.file content) →
        StagesFile c fs S names content

theorem Config.StagesFile.names_ne_nil {content : Content} (h : c.StagesFile fs S names content) :
    names ≠ [] := by
  cases h with
  | classFile shown _ => exact shown.names_ne_nil
  | auxFile _ _ inner _ => exact inner

/-! ## Accepted at a site -/

/-- An accepted configuration with the shipped manifest at such a site. -/
structure Config.AtSite (c : Config) (fs : FileSystem) (S W : Place) : Prop where
  accepted : c.validate fs = .ok ()
  manifest : c.auxFiles = defaultManifest
  site : c.Site fs S W

namespace Config.AtSite

variable (h : c.AtSite start S W)

include h

theorem sound : c.Sound := Config.sound_of_validate h.accepted

theorem outDir_named : namesOf c.outDir ≠ [] :=
  Path.names_ne_nil (named_of_checkRelative (checks_of_validate h.accepted).2.2.1) h.site.noZero.1

theorem stagingDir_named : namesOf c.stagingDirName ≠ [] :=
  Path.names_ne_nil h.sound.stagingDir_named h.site.noZero.2.1

theorem steady_destination : start.Steady (Utf8.encode c.layout.destinationRoot) :=
  h.site.steady_working.joinText h.sound.outDir

theorem steady_staging : start.Steady (Utf8.encode c.layout.stagingDir) :=
  h.steady_destination.joinText h.sound.stagingDir

/-- There is no old output directory, -/
theorem missing_destination : start.at? (W ++ namesOf c.outDir) = none := by
  obtain ⟨n, r, split⟩ := List.exists_cons_of_ne_nil h.outDir_named
  rw [split]
  exact h.site.at?_below n r

/-- so nothing is taken away. -/
theorem cleared_eq : c.cleared start = start := by
  have away := start.without_tookAway c.destination
  refine ext_at? (fun q => ?_) away.workingDir away.limits
  rcases away.at? q with same | ⟨_, e, names, _, there⟩
  · exact same
  · have here :=
      names.eq_of_join h.site.working.leads h.sound.outDir h.site.plain_working h.outDir_named
    rw [here, h.missing_destination] at there
    simp at there

theorem anchored : c.Anchored start where
  workingDir := by
    rw [h.cleared_eq]
    exact h.site.steady_working
  sourceRoot := by
    rw [h.cleared_eq]
    exact h.site.starts _

theorem clear : c.Clear (c.cleared start) := by
  rw [h.cleared_eq]
  refine ⟨fun q d reach leads => ?_, fun f there _ t leads reach => ?_⟩
  · obtain rfl := h.site.place_of_leadsTo h.sound.outDir leads
    obtain ⟨r, rfl⟩ := h.site.below_of_reaches reach
    exact h.site.aside.symm
  · obtain rfl := h.site.place_of_leadsTo (h.sound.target f there) leads
    obtain ⟨r, same⟩ := h.site.below_of_reaches reach
    have above : S ++ r <+: W ++ namesOf f.target := by simp [same]
    exact h.site.aside.1 above

theorem exists_archive_name : ∃ n, Name.ofBytes? (Utf8.encode c.layout.archiveName) = some n :=
  h.sound.archive_valid h.site.noZero.2.2

/-- The archive's name is one name, and starts with a `b`. -/
theorem archive_named {n : Name}
    (named : Name.ofBytes? (Utf8.encode c.layout.archiveName) = some n) :
    namesOf c.layout.archiveName = [n] ∧ Utf8.encode c.layout.archiveName = n.bytes ∧
    n.bytes.head? = some 0x62 := by
  have bytes : Utf8.encode c.layout.archiveName = n.bytes := by
    unfold Name.ofBytes? at named
    split at named <;> cases named
    rfl
  refine ⟨?_, bytes, ?_⟩
  · rw [namesOf, h.sound.archive_segments, Segment.names_map_name, named]
    rfl
  · rw [← bytes]
    simp [Config.layout, archiveFileName, show Utf8.encode (toString "b") = [0x62] by decide]

/-- Where a file for the working directory goes. -/
theorem place_of_sentTo (grown : start.Grows gs) (sent : c.SentTo gs t) :
    ∃ f ∈ c.auxFiles, f.placement = .workingDir ∧ t = W ++ namesOf f.target := by
  obtain ⟨f, there, placed, leads⟩ := sent
  exact ⟨f, there, placed, h.site.place_of_leadsTo (h.sound.target f there)
    (grown.leadsTo_iff.1 leads)⟩

theorem sentTo (grown : start.Grows gs) (there : f ∈ c.auxFiles)
    (placed : f.placement = .workingDir) : c.SentTo gs (W ++ namesOf f.target) := by
  refine ⟨f, there, placed, grown.leadsTo_iff.2 ?_⟩
  rw [encode_joinText]
  exact h.site.working.leads.join (h.sound.target f there) h.site.plain_working

/-! ### With both directories made -/

section Prepared

variable (prepared : c.Prepared start mid fs d st)

include prepared

theorem place_destination : d = W ++ namesOf c.outDir := by
  have leads := prepared.outer.leads
  rw [h.cleared_eq] at leads
  exact h.site.place_of_leadsTo h.sound.outDir leads

theorem place_staging : st = W ++ (namesOf c.outDir ++ namesOf c.stagingDirName) := by
  rw [prepared.place, h.place_destination prepared, List.append_assoc]

theorem grows (grown : mid.Grows gs) : start.Grows gs := h.cleared_eq ▸ prepared.bare_grows grown

/-- Both directories were made, with those above, and nothing else has changed. -/
theorem at?_prepared (q : Place) :
    fs.at? q = if q <+: st then some .directory else start.at? q := by
  rw [prepared.inner.raised.at?, prepared.outer.raised.at?, h.cleared_eq]
  split
  · rfl
  · rename_i aside
    rw [if_neg fun above => aside (above.trans prepared.below)]

theorem at?_source (r : Place) : fs.at? (S ++ r) = start.at? (S ++ r) := by
  rw [h.at?_prepared prepared, if_neg]
  rw [h.place_staging prepared]
  exact h.site.aside.1

end Prepared

/-! ### What is found -/

section Found

variable (grown : start.Grows w.files) (same : ∀ r, w.files.at? (S ++ r) = start.at? (S ++ r))

include grown same

theorem mem_classes_iff (search : findMatches c.sourceRoot .classFiles w = .ok classes w') :
    path ∈ classes ↔ Shows start c.sourceRoot ".class" path (namesOf path) := by
  rw [mem_findMatches_iff.1 search path]
  constructor
  · rintro ⟨names, shown⟩
    obtain rfl := namesOf_eq shown.spelled
    exact (h.site.shows_iff grown same).1 shown
  · intro shown
    exact ⟨_, (h.site.shows_iff grown same).2 shown⟩

theorem mem_jars_iff (search : findMatches c.sourceRoot .prebuiltArchives w = .ok jars w') :
    path ∈ jars ↔ Shows start c.sourceRoot ".jar" path (namesOf path) ∧
      ¬ (namesOf path).GoesThrough "jre" ∧ ¬ (namesOf path).GoesThrough "jre64" := by
  rw [mem_findMatches_iff.2 search path]
  constructor
  · rintro ⟨names, shown, outside⟩
    obtain rfl := namesOf_eq shown.spelled
    exact ⟨(h.site.shows_iff grown same).1 shown, outside⟩
  · rintro ⟨shown, outside⟩
    exact ⟨_, (h.site.shows_iff grown same).2 shown, outside⟩

end Found

/-- What is staged, and that all that can be reached from the source root is as it was. -/
theorem staged (prepared : c.Prepared start mid w.files d st) {report : AuxReport}
    (fill : fillStaging c w = .ok (classes, report) w') :
    ∃ ds, Copies ds w.files w'.files ∧ StagedTree c classes ds st w'.files ∧
      (∀ path, path ∈ classes ↔ Shows start c.sourceRoot ".class" path (namesOf path)) ∧
      ∀ q, c.Reaches (c.cleared start) q → w'.files.at? q = (c.cleared start).at? q := by
  obtain ⟨ds, ⟨_, search⟩, _, copies, texts⟩ := prepared.copies h.clear fill
  have shown : ∀ path, path ∈ classes ↔
      Shows start c.sourceRoot ".class" path (namesOf path) := fun path =>
    h.mem_classes_iff (h.grows prepared prepared.grows) (h.at?_source prepared) search
  obtain ⟨tree, reached⟩ := prepared.stagedTree h.clear copies texts fun path there =>
    descends_of_relative ⟨_, ((shown path).1 there).spelled⟩
  exact ⟨ds, copies, tree, shown, reached⟩

/-! ### What is staged -/

theorem goes_of_staged (there : f ∈ c.auxFiles) (placed : f.placement = .staged)
    (goes : c.targetNames f = namesOf c.outDir ++ namesOf c.stagingDirName ++ names) :
    namesOf f.source = names := by
  rw [c.targetNames_of_staged placed] at goes
  rw [← (defaultManifest_spelled (h.manifest ▸ there)).1]
  exact List.append_cancel_left goes

/-- No file of the manifest is put where a class file goes, unless it is that file. -/
theorem source_eq_of_class (shown : Shows start c.sourceRoot ".class" path names)
    (there : f ∈ c.auxFiles) (goes : c.targetNames f =
      namesOf c.outDir ++ namesOf c.stagingDirName ++ names) : namesOf f.source = names := by
  cases placed : f.placement with
  | staged => exact h.goes_of_staged there placed goes
  | workingDir =>
      obtain ⟨n, inside, suffix⟩ := shown.ending.exists_suffix
      rw [c.targetNames_of_workingDir placed] at goes
      refine absurd suffix (defaultManifest_names (h.manifest ▸ there) placed n ?_).1
      rw [goes]
      exact List.mem_append_right _ inside

/-- A staged file has a name that no file for the working directory goes through. -/
theorem targetNames_ne (there : f ∈ c.auxFiles) (placed : f.placement = .workingDir)
    (there' : g ∈ c.auxFiles) (placed' : g.placement = .staged) :
    c.targetNames f ≠ c.targetNames g := by
  intro same
  obtain ⟨single, other⟩ :=
    (defaultManifest_level f (h.manifest ▸ there) placed g (h.manifest ▸ there')).2 placed'
  obtain ⟨n, only⟩ := List.length_eq_one_iff.1 single
  rw [c.targetNames_of_workingDir placed, c.targetNames_of_staged placed'] at same
  exact other n (by simp [only]) (by simp [same, only])

/-- No two files of the manifest are put into one place below the staging directory. -/
theorem source_eq_of_aux (there : f ∈ c.auxFiles) (there' : g ∈ c.auxFiles)
    (goes : c.targetNames f = namesOf c.outDir ++ namesOf c.stagingDirName ++ names)
    (goes' : c.targetNames g = namesOf c.outDir ++ namesOf c.stagingDirName ++ names) :
    namesOf f.source = namesOf g.source := by
  have same := goes.trans goes'.symm
  cases placed : f.placement with
  | staged =>
      cases placed' : g.placement with
      | staged => rw [h.goes_of_staged there placed goes, h.goes_of_staged there' placed' goes']
      | workingDir => exact absurd same.symm (h.targetNames_ne there' placed' there placed)
  | workingDir =>
      cases placed' : g.placement with
      | staged => exact absurd same (h.targetNames_ne there placed there' placed')
      | workingDir =>
          rw [c.targetNames_of_workingDir placed, c.targetNames_of_workingDir placed'] at same
          rwa [← (defaultManifest_spelled (h.manifest ▸ there)).1,
            ← (defaultManifest_spelled (h.manifest ▸ there')).1]

/-- A run puts one file only into each place below the staging directory. -/
theorem stagesFile_unique {content content' : Content} (staged : c.StagesFile start S names content)
    (staged' : c.StagesFile start S names content') : content = content' := by
  suffices same : (some (.file content) : Option Entry) = some (.file content') by simpa using same
  cases staged with
  | classFile shown file =>
      cases staged' with
      | classFile _ file' => rw [← file, ← file']
      | auxFile there goes _ file' => rw [← file, ← file', h.source_eq_of_class shown there goes]
  | auxFile there goes _ file =>
      cases staged' with
      | classFile shown file' => rw [← file, ← file', h.source_eq_of_class shown there goes]
      | auxFile there' goes' _ file' =>
          rw [← file, ← file', h.source_eq_of_aux there there' goes goes']

section Copied

variable {ds : List Copied} {e : Copied} (prepared : c.Prepared start mid fs d st)
  (grown : start.Grows gs) (tree : StagedTree c classes ds st gs)
  (same : ∀ r, gs.at? (S ++ r) = start.at? (S ++ r))

include grown tree same

/-- What was copied is a file of the source root, as it is there. -/
theorem content_of_copied (copied : e ∈ ds) {source : String}
    (descends : Path.Descends (Utf8.encode source))
    (text : e.source = Utf8.encode (joinText c.sourceRoot source)) :
    start.at? (S ++ namesOf source) = some (.file e.content) := by
  obtain ⟨arrives, file⟩ := tree.reads e copied
  have leads := grown.leadsTo_iff.1 arrives.leads
  rw [text] at leads
  have origin : e.origin = S ++ namesOf source :=
    leads.eq_of_join h.site.source.leads descends h.site.plain
  rwa [origin, same] at file

/-- A class file was copied to its names below the staging directory, -/
theorem place_of_class (copied : e ∈ ds)
    (shown : Shows start c.sourceRoot ".class" path (namesOf path))
    (source : e.source = Utf8.encode (joinText c.sourceRoot path))
    (target : e.target = Utf8.encode (joinText c.layout.stagingDir path)) :
    e.place = st ++ namesOf path ∧ start.at? (S ++ namesOf path) = some (.file e.content) := by
  have descends := descends_of_relative ⟨_, shown.spelled⟩
  exact ⟨tree.place e copied path descends target,
    h.content_of_copied grown tree same copied descends source⟩

include prepared

/-- and a file of the manifest to where it goes. -/
theorem place_of_aux (copied : e ∈ ds) (there : f ∈ c.auxFiles)
    (source : e.source = Utf8.encode (joinText c.sourceRoot f.source))
    (target : e.target = Utf8.encode (f.destination c.layout.stagingDir c.workingDir)) :
    e.place = W ++ c.targetNames f ∧
    start.at? (S ++ namesOf f.source) = some (.file e.content) := by
  refine ⟨?_, h.content_of_copied grown tree same copied (h.sound.source f there) source⟩
  cases placed : f.placement with
  | staged =>
      simp only [AuxFile.destination, placed] at target
      rw [tree.place e copied f.target (h.sound.target f there) target, h.place_staging prepared,
        c.targetNames_of_staged placed, List.append_assoc]
  | workingDir =>
      simp only [AuxFile.destination, placed] at target
      have leads := grown.leadsTo_iff.1 (tree.arrives e copied).leads
      rw [target] at leads
      rw [h.site.place_of_leadsTo (h.sound.target f there) leads,
        c.targetNames_of_workingDir placed]

variable (shown : ∀ path, path ∈ classes ↔ Shows start c.sourceRoot ".class" path (namesOf path))

include shown

/-- What stands below the staging directory when it is packed is what the run puts there, -/
theorem stagesFile_of_file {content : Content}
    (file : gs.at? (st ++ names) = some (.file content)) : c.StagesFile start S names content := by
  have inner : names ≠ [] := by
    rintro rfl
    simp [tree.self] at file
  obtain ⟨e, member, place, rfl⟩ := tree.exists_copied file
  have listed : (e.source, e.target) ∈ c.copyTexts classes :=
    tree.texts ▸ List.mem_map_of_mem member
  rcases mem_copyTexts listed with ⟨path, found, source, target⟩ | ⟨f, there, source, target⟩
  · have shown := (shown path).1 found
    obtain ⟨place', content⟩ := h.place_of_class grown tree same member shown source target
    rw [place, List.append_cancel_left_eq] at place'
    subst place'
    exact .classFile shown content
  · obtain ⟨place', content⟩ := h.place_of_aux prepared grown tree same member there source target
    rw [place, h.place_staging prepared, List.append_assoc, List.append_cancel_left_eq] at place'
    exact .auxFile there place'.symm inner content

/-- and all of it. -/
theorem file_of_stagesFile {content : Content} (staged : c.StagesFile start S names content) :
    gs.at? (st ++ names) = some (.file content) := by
  obtain ⟨e, member, place⟩ : ∃ e ∈ ds, e.place = st ++ names := by
    cases staged with
    | @classFile path _ _ found _ =>
        obtain rfl := namesOf_eq found.spelled
        have listed : (Utf8.encode (joinText c.sourceRoot path),
            Utf8.encode (joinText c.layout.stagingDir path)) ∈
            c.copyTexts classes :=
              List.mem_append_left _ (List.mem_map_of_mem ((shown path).2 found))
        obtain ⟨e, member, pair⟩ := List.mem_map.1 (tree.texts ▸ listed)
        obtain ⟨source, target⟩ := Prod.mk.inj pair
        exact ⟨e, member, (h.place_of_class grown tree same member found source target).1⟩
    | @auxFile f _ _ there goes _ _ =>
        have listed : (Utf8.encode (joinText c.sourceRoot f.source),
            Utf8.encode (f.destination c.layout.stagingDir c.workingDir)) ∈ c.copyTexts classes :=
          List.mem_append_right _ (List.mem_map_of_mem there)
        obtain ⟨e, member, pair⟩ := List.mem_map.1 (tree.texts ▸ listed)
        obtain ⟨source, target⟩ := Prod.mk.inj pair
        refine ⟨e, member,
          (h.place_of_aux prepared grown tree same member there source target).1.trans ?_⟩
        rw [goes, h.place_staging prepared, List.append_assoc W]
  -- Something was copied there, and only one file is.
  obtain ⟨content', file⟩ := tree.exists_file member place staged.names_ne_nil
  rw [file, h.stagesFile_unique staged (h.stagesFile_of_file prepared grown tree same shown file)]

end Copied

/-- The source root can be reached. -/
theorem at?_of_reached
    (reached : ∀ q, c.Reaches (c.cleared start) q → gs.at? q = (c.cleared start).at? q)
    (r : Place) : gs.at? (S ++ r) = start.at? (S ++ r) := by
  rw [h.cleared_eq] at reached
  exact reached _ (h.site.reaches_below r)

end Config.AtSite

end ClassPack
