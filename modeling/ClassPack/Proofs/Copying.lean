import ClassPack.Proofs.Staging

/-!
# Copying — many copies, one after the other

* `Copies ds fs gs` — the copies `ds` were made in turn; `Copies.at?_eq` tells what stands at
  every place afterwards: the last copy that went there, a directory above a copy, or what
  was there before;
* `collect_ok` and `copyAuxFiles_copies`, the copies made by steps that go well; `collect_fills` and
  `copyAuxFiles_fills`, whatever comes of them;
* `copyAuxFiles_eq` — the loop over a manifest copies its files in turn, and counts as many as it
  has: `AuxReport.ofManifest`.
-/

namespace ClassPack

open FileSystem

variable {fs gs hs : FileSystem} {q : Place} {w w' : Workshop} {ds ds' : List Copied}

/-! ## The last of several -/

/-- What a list holds last under a place. -/
def lastAt? {α : Type} : List (Place × α) → Place → Option α
  | [], _ => none
  | (p, a) :: rest, q => (lastAt? rest q).or (if p = q then some a else none)

theorem mem_of_lastAt? {α : Type} {l : List (Place × α)} {a : α} (h : lastAt? l q = some a) :
    (q, a) ∈ l := by
  induction l with
  | nil => simp [lastAt?] at h
  | cons first rest ih =>
      unfold lastAt? at h
      cases later : lastAt? rest q with
      | some b =>
          obtain rfl : b = a := by simpa [later] using h
          exact List.mem_cons_of_mem _ (ih later)
      | none =>
          rw [later, Option.none_or] at h
          split at h
          · rename_i here
            cases h
            simp [← here]
          · simp at h

theorem lastAt?_of_mem {α : Type} {l : List (Place × α)} {a : α} (h : (q, a) ∈ l) :
    ∃ b, lastAt? l q = some b := by
  induction l with
  | nil => simp at h
  | cons first rest ih =>
      unfold lastAt?
      cases later : lastAt? rest q with
      | some b => exact ⟨b, rfl⟩
      | none =>
          rcases List.mem_cons.1 h with rfl | there
          · exact ⟨a, by simp⟩
          · obtain ⟨b, found⟩ := ih there
            simp [later] at found

/-! ## Copies in turn -/

/-- Copies made one after the other. -/
inductive Copies : List Copied → FileSystem → FileSystem → Prop where
  | nil (fs : FileSystem) : Copies [] fs fs
  | cons {d : Copied} {ds : List Copied} {fs gs hs : FileSystem} :
      d.Made fs gs → Copies ds gs hs → Copies (d :: ds) fs hs

namespace Copies

theorem append (h : Copies ds fs gs) (h' : Copies ds' gs hs) : Copies (ds ++ ds') fs hs := by
  induction h with
  | nil fs => exact h'
  | cons made _ ih => exact .cons made (ih h')

theorem grows (h : Copies ds fs gs) : fs.Grows gs := by
  induction h with
  | nil fs => exact .refl fs
  | cons made _ ih => exact made.delivers.toGrows.trans ih

/-- After all copies a place holds what was copied there last, or is a directory above a copy, or
is as it was. -/
theorem at?_eq (h : Copies ds fs gs) (q : Place) :
    gs.at? q =
      match lastAt? (ds.map fun d => (d.place, d.content)) q with
      | some content => some (.file content)
      | none => if ∃ d ∈ ds, q <+: d.place then some .directory else fs.at? q := by
  -- Induction on the copies; a later copy to the same place hides the first one.
  induction h with
  | nil fs => simp [lastAt?]
  | @cons d ds fs gs hs made rest ih =>
      rw [List.map_cons, lastAt?, ih]
      cases later : lastAt? (ds.map fun d => (d.place, d.content)) q with
      | some content => rfl
      | none =>
          rw [Option.none_or]
          by_cases here : d.place = q
          · -- A file stays one, so nothing was put below it later.
            rw [if_pos here, if_neg]
            · simp [← here, made.delivers.at?_self]
            · intro above
              have file : gs.at? q = some (.file d.content) := here ▸ made.delivers.at?_self
              obtain ⟨_, stays⟩ := rest.grows.file file
              rw [ih, later, if_pos above] at stays
              simp at stays
          · simp only [if_neg here, List.mem_cons, exists_eq_or_imp]
            rw [made.delivers.at?, if_neg (Ne.symm here)]
            by_cases above : ∃ d ∈ ds, q <+: d.place
            · simp [above]
            · simp [above]

/-- A place that no copy went to, nor below, is as it was. -/
theorem at?_untouched (h : Copies ds fs gs) (clear : ∀ d ∈ ds, ¬ q <+: d.place) :
    gs.at? q = fs.at? q := by
  rw [h.at?_eq, if_neg fun ⟨d, there, above⟩ => clear d there above]
  cases last : lastAt? (ds.map fun d => (d.place, d.content)) q with
  | none => rfl
  | some content =>
      obtain ⟨d, there, same⟩ := List.mem_map.1 (mem_of_lastAt? last)
      exact absurd ((Prod.mk.inj same).1 ▸ List.prefix_refl _) (clear d there)

/-- Where no copy went there is a file if there was one, and it is the same. -/
theorem file_iff {content : Content} (h : Copies ds fs gs) (other : ∀ d ∈ ds, d.place ≠ q) :
    gs.at? q = some (.file content) ↔ fs.at? q = some (.file content) := by
  have at?_q : gs.at? q = if ∃ d ∈ ds, q <+: d.place then some .directory else fs.at? q := by
    rw [h.at?_eq]
    cases last : lastAt? (ds.map fun d => (d.place, d.content)) q with
    | none => rfl
    | some content' =>
        obtain ⟨d, there, same⟩ := List.mem_map.1 (mem_of_lastAt? last)
        exact absurd (Prod.mk.inj same).1 (other d there)
  by_cases above : ∃ d ∈ ds, q <+: d.place
  · rw [if_pos above] at at?_q
    refine ⟨fun file => by simp [at?_q] at file, fun file => ?_⟩
    -- It would still be a file, so nothing would have been put below it.
    obtain ⟨_, stays⟩ := h.grows.file file
    simp [at?_q] at stays
  · rw [at?_q, if_neg above]

/-- Each copy was made after some of the others. -/
theorem made_of_mem {d : Copied} (h : Copies ds fs gs) (there : d ∈ ds) :
    ∃ before f₁ f₂, before ⊆ ds ∧ Copies before fs f₁ ∧ d.Made f₁ f₂ ∧ f₂.Grows gs := by
  induction h with
  | nil => simp at there
  | @cons e rest fs mid gs made more ih =>
      rcases List.mem_cons.1 there with rfl | later
      · exact ⟨[], fs, mid, by simp, .nil fs, made, more.grows⟩
      · obtain ⟨before, f₁, f₂, sub, copies, made', grown⟩ := ih later
        exact ⟨e :: before, f₁, f₂, List.cons_subset_cons e sub, .cons made copies, made', grown⟩

/-- Where a copy was read and put is found so when all are made. -/
theorem arrives_of_mem {d : Copied} (h : Copies ds fs gs) (there : d ∈ ds)
    (starts : fs.Starts d.source ∧ fs.Starts d.target) :
    gs.Arrives d.source d.origin ∧ gs.Arrives d.target d.place := by
  obtain ⟨_, f₁, f₂, _, before, made, after⟩ := h.made_of_mem there
  have grown := (before.grows.trans made.delivers.toGrows).toWithin
  exact ⟨made.source.of_within after.toWithin (starts.1.of_within grown),
    made.target.of_within after.toWithin (starts.2.of_within grown)⟩

/-- What was copied from a place that no copy went to was there from the beginning. -/
theorem origin_of_mem {d : Copied} (h : Copies ds fs gs) (there : d ∈ ds)
    (other : ∀ e ∈ ds, e.place ≠ d.origin) :
    fs.at? d.origin = some (.file d.content) := by
  obtain ⟨before, f₁, f₂, sub, copies, made, _⟩ := h.made_of_mem there
  have content := made.content
  rw [if_neg (other d there).symm] at content
  exact (copies.file_iff fun e early => other e (sub early)).1 content

end Copies

/-! ## Files found by a pattern -/

theorem findMatches_files (root : String) (pattern : ArtifactPattern) (w : Workshop) :
    (leftBy (findMatches root pattern w)).files = w.files := by
  unfold findMatches
  cases pattern.compile with
  | error e => rfl
  | ok selector =>
      rw [bind_of_ok (show Work.ofExcept (.ok selector) w = .ok selector w from rfl),
        bind_of_ok (show Work.view _ w = .ok _ w from rfl)]
      simp only
      rw [bind_of_ok (show Work.logAll _ _ w = .ok () _ from rfl)]
      cases (untilError (visits w.files root)).2 <;> rfl

/-- What is found is told by names. -/
theorem relative_of_findMatches {root : String} {pattern : ArtifactPattern} {paths : List String}
    (h : findMatches root pattern w = .ok paths w') :
    ∀ path ∈ paths, ∃ names : Place, Utf8.encode path = names.relativePath := by
  unfold findMatches at h
  obtain ⟨selector, w₁, _, h⟩ := bind_eq_ok.1 h
  obtain ⟨⟨found, fault⟩, w₂, _, h⟩ := bind_eq_ok.1 h
  obtain ⟨_, w₃, _, h⟩ := bind_eq_ok.1 h
  cases fault with
  | some fault => cases h
  | none =>
      cases h
      intro path there
      obtain ⟨file, _, spelled⟩ := List.mem_filterMap.1 (List.mem_of_mem_filter there)
      exact ⟨file.names, Utf8.encode_of_decode? spelled⟩

/-- What is found is selected by the pattern. -/
theorem selects_of_findMatches {root : String} {pattern : ArtifactPattern} {paths : List String}
    (h : findMatches root pattern w = .ok paths w') :
    ∃ selector, pattern.compile = .ok selector ∧ ∀ path ∈ paths, selector.selects path = true := by
  unfold findMatches at h
  obtain ⟨selector, w₁, read, h⟩ := bind_eq_ok.1 h
  obtain ⟨⟨found, fault⟩, w₂, _, h⟩ := bind_eq_ok.1 h
  obtain ⟨_, w₃, _, h⟩ := bind_eq_ok.1 h
  have compiled : pattern.compile = .ok selector := by
    cases e : pattern.compile with
    | error failure =>
        rw [e] at read
        cases read
    | ok selector' =>
        rw [e] at read
        cases read
        rfl
  cases fault with
  | some fault => cases h
  | none =>
      cases h
      exact ⟨selector, compiled, fun path there => (List.mem_filter.1 there).2⟩

theorem descends_of_relative {path : String}
    (h : ∃ names : Place, Utf8.encode path = names.relativePath) :
    Path.Descends (Utf8.encode path) := by
  obtain ⟨names, spelled⟩ := h
  rw [spelled]
  exact Path.descends_relativePath names

variable {sourceRoot targetRoot : String} {paths : List String}

theorem copyAll_eq_forM : copyAll sourceRoot targetRoot paths =
    forM paths fun path => copyFile (joinText sourceRoot path) (joinText targetRoot path) := by
  induction paths with
  | nil => rfl
  | cons path rest ih => rw [List.forM_cons, copyAll, ih]

theorem copyAll_ok (h : copyAll sourceRoot targetRoot paths w = .ok () w')
    (starts : w.files.Starts (Utf8.encode sourceRoot))
    (steady : w.files.Steady (Utf8.encode targetRoot))
    (descends : ∀ path ∈ paths, Path.Descends (Utf8.encode path)) :
    ∃ ds, Copies ds w.files w'.files ∧
      ds.map (fun d => (d.source, d.target)) =
        paths.map fun path =>
          (Utf8.encode (joinText sourceRoot path), Utf8.encode (joinText targetRoot path)) := by
  induction paths generalizing w with
  | nil =>
      cases h
      exact ⟨[], .nil _, rfl⟩
  | cons path rest ih =>
      unfold copyAll at h
      obtain ⟨_, w₁, first, later⟩ := bind_eq_ok.1 h
      have down := descends path (List.mem_cons_self ..)
      obtain ⟨d, source, target, made⟩ :=
        copyFile_ok first (starts.joinText down) (steady.joinText down)
      have grown := made.delivers.toWithin
      obtain ⟨ds, copies, texts⟩ := ih later (starts.of_within grown) (steady.of_within grown)
        fun p there => descends p (List.mem_cons_of_mem _ there)
      exact ⟨d :: ds, .cons made copies, by simp [source, target, texts]⟩

theorem copyAll_fills (sourceRoot : String) (steady : w.files.Steady (Utf8.encode targetRoot))
    (descends : ∀ path ∈ paths, Path.Descends (Utf8.encode path)) :
    Fills (fun t => ∃ path ∈ paths, w.files.LeadsTo (Utf8.encode (joinText targetRoot path)) t)
      w.files (leftBy (copyAll sourceRoot targetRoot paths w)).files := by
  induction paths generalizing w with
  | nil => exact .refl _ _
  | cons path rest ih =>
      have down := descends path (List.mem_cons_self ..)
      have first := copyFile_fills (joinText sourceRoot path) (joinText targetRoot path) w
        (steady.joinText down)
      have first : Fills
          (fun t => ∃ p ∈ path :: rest, w.files.LeadsTo (Utf8.encode (joinText targetRoot p)) t)
          w.files (leftBy (copyFile (joinText sourceRoot path)
            (joinText targetRoot path) w)).files :=
        first.mono fun t leads => ⟨path, by simp, leads⟩
      unfold copyAll
      cases copied : copyFile (joinText sourceRoot path) (joinText targetRoot path) w with
      | error e w₁ =>
          rw [bind_of_error copied]
          rwa [copied] at first
      | ok _ w₁ =>
          rw [bind_of_ok copied]
          rw [copied] at first
          have later := ih (steady.of_within first.toWithin) fun p there =>
            descends p (List.mem_cons_of_mem _ there)
          refine first.trans (later.mono ?_)
          rintro t ⟨p, there, leads⟩
          exact ⟨p, List.mem_cons_of_mem _ there, first.toGrows.leadsTo_iff.1 leads⟩

/-- What is collected is what the search gives, if all copies go well. -/
theorem collect_of_findMatches {pattern : ArtifactPattern} {w₁ : Workshop} (targetRoot : String)
    (search : findMatches sourceRoot pattern w = .ok paths w₁) :
    ∃ w₂, w₂.files = w.files ∧ collect sourceRoot pattern targetRoot w =
      (copyAll sourceRoot targetRoot paths >>= fun _ => pure paths) w₂ := by
  have same : w₁.files = w.files := by simpa [search] using findMatches_files sourceRoot pattern w
  obtain ⟨w₂, logged, same'⟩ := Work.log_ok .debug
    s!"{paths.length} file(s) match {pattern.wanted} under {sourceRoot}" w₁
  exact ⟨w₂, same'.trans same, (bind_of_ok search).trans (bind_of_ok logged)⟩

theorem findMatches_of_collect {pattern : ArtifactPattern}
    (done : collect sourceRoot pattern targetRoot w = .ok paths w') :
    ∃ w₁, findMatches sourceRoot pattern w = .ok paths w₁ := by
  obtain ⟨found, w₁, search, rest⟩ := bind_eq_ok.1 done
  obtain ⟨w₂, _, collects⟩ := collect_of_findMatches targetRoot search
  obtain ⟨_, _, _, last⟩ := bind_eq_ok.1 (collects.symm.trans done)
  cases last
  exact ⟨w₁, search⟩

theorem collect_ok {pattern : ArtifactPattern}
    (h : collect sourceRoot pattern targetRoot w = .ok paths w')
    (starts : w.files.Starts (Utf8.encode sourceRoot))
    (steady : w.files.Steady (Utf8.encode targetRoot)) :
    (∃ w₁, findMatches sourceRoot pattern w = .ok paths w₁) ∧
      ∃ ds, Copies ds w.files w'.files ∧
        ds.map (fun d => (d.source, d.target)) =
          paths.map fun path =>
            (Utf8.encode (joinText sourceRoot path), Utf8.encode (joinText targetRoot path)) := by
  obtain ⟨w₁, search⟩ := findMatches_of_collect h
  obtain ⟨w₂, files, collects⟩ := collect_of_findMatches targetRoot search
  obtain ⟨_, w₃, copied, last⟩ := bind_eq_ok.1 (collects.symm.trans h)
  cases last
  have := copyAll_ok copied (by rw [files]; exact starts) (by rw [files]; exact steady)
    fun p there => descends_of_relative (relative_of_findMatches search p there)
  rw [files] at this
  exact ⟨⟨w₁, search⟩, this⟩

/-- A copy of a found file: `t` is where the other root leads. -/
structure Copied.Of (d : Copied) (sourceRoot targetRoot : String) (t : Place) (fs : FileSystem)
    (path : String) :
    Prop where
  source : d.source = Utf8.encode (joinText sourceRoot path)
  target : d.target = Utf8.encode (joinText targetRoot path)
  reads : fs.Arrives d.source d.origin
  arrives : fs.Arrives d.target d.place
  place : ∃ names : Place, Utf8.encode path = names.relativePath ∧ d.place = t ++ names

/-- Found files are copied to the same paths. -/
theorem collect_copies {pattern : ArtifactPattern} {t : Place}
    (h : collect sourceRoot pattern targetRoot w = .ok paths w')
    (starts : w.files.Starts (Utf8.encode sourceRoot))
    (steady : w.files.Steady (Utf8.encode targetRoot))
    (leads : w.files.LeadsTo (Utf8.encode targetRoot) t)
    (plain : ∀ r target, w.files.at? (t ++ r) ≠ some (.link target)) :
    ∃ w₁ ds, findMatches sourceRoot pattern w = .ok paths w₁ ∧ Copies ds w.files w'.files ∧
      (∀ path ∈ paths, ∃ d ∈ ds, d.Of sourceRoot targetRoot t w'.files path) ∧
      ∀ d ∈ ds, ∃ path ∈ paths, d.Of sourceRoot targetRoot t w'.files path := by
  obtain ⟨⟨w₁, search⟩, ds, copies, texts⟩ := collect_ok h starts steady
  have copyOf : ∀ d ∈ ds, ∀ path ∈ paths, d.source = Utf8.encode (joinText sourceRoot path) →
      d.target = Utf8.encode (joinText targetRoot path) →
      d.Of sourceRoot targetRoot t w'.files path := by
    intro d there path found source target
    obtain ⟨names, spelled⟩ := relative_of_findMatches search path found
    have descends := descends_of_relative ⟨names, spelled⟩
    obtain ⟨reads, arrives⟩ := copies.arrives_of_mem there
      ⟨source ▸ starts.joinText descends, target ▸ (steady.joinText descends).starts⟩
    refine ⟨source, target, reads, arrives, names, spelled, ?_⟩
    have toward := copies.grows.leadsTo_iff.1 (target ▸ arrives.leads)
    rw [toward.eq_of_join leads descends plain, spelled, Path.segments_relativePath,
      Segment.names_map_name]
  refine ⟨w₁, ds, search, copies, fun path found => ?_, fun d there => ?_⟩
  · obtain ⟨d, there, same⟩ := List.mem_map.1 (texts ▸ List.mem_map_of_mem found)
    obtain ⟨source, target⟩ := Prod.mk.inj same
    exact ⟨d, there, copyOf d there path found source target⟩
  · obtain ⟨path, found, same⟩ := List.mem_map.1 (texts ▸ List.mem_map_of_mem there)
    obtain ⟨source, target⟩ := Prod.mk.inj same
    exact ⟨path, found, copyOf d there path found source.symm target.symm⟩

/-- A found file that is not below the other root is there as it is. -/
theorem read?_of_copies {t : Place} {path : String} (copies : Copies ds fs gs)
    (all : ∀ d ∈ ds, ∃ path ∈ paths, d.Of sourceRoot targetRoot t gs path) {d : Copied}
    (there : d ∈ ds) (copy : d.Of sourceRoot targetRoot t gs path)
    (outside : ∀ o, gs.LeadsTo (Utf8.encode (joinText sourceRoot path)) o → ¬ t <+: o) :
    ∃ content, gs.at? d.place = some (.file content) ∧
      gs.read? (Utf8.encode (joinText sourceRoot path)) = some content := by
  obtain ⟨content, final⟩ :=
    lastAt?_of_mem (List.mem_map_of_mem (f := fun d => (d.place, d.content)) there)
  -- The copy that came last went to the same place, so it is of the same file.
  obtain ⟨e, listed, same⟩ := List.mem_map.1 (mem_of_lastAt? final)
  obtain ⟨here, rfl⟩ := Prod.mk.inj same
  obtain ⟨path', _, copy'⟩ := all e listed
  obtain ⟨names, spelled, place⟩ := copy.place
  obtain ⟨names', spelled', place'⟩ := copy'.place
  obtain rfl : names' = names := List.append_cancel_left (place'.symm.trans (here.trans place))
  obtain rfl : path' = path := Utf8.encode_injective (spelled'.trans spelled.symm)
  have reads := copy'.reads
  rw [copy'.source] at reads
  have aside : ∀ f ∈ ds, f.place ≠ e.origin := by
    intro f member meets
    obtain ⟨_, _, other⟩ := all f member
    obtain ⟨_, _, below⟩ := other.place
    exact outside e.origin reads.leads (meets ▸ below ▸ List.prefix_append ..)
  exact ⟨e.content, by rw [copies.at?_eq, final],
    read?_eq_some_iff.2 ⟨_, reads, (copies.file_iff aside).2 (copies.origin_of_mem listed aside)⟩⟩

theorem collect_fills (sourceRoot : String) (pattern : ArtifactPattern) (targetRoot : String)
    (w : Workshop) (steady : w.files.Steady (Utf8.encode targetRoot)) :
    Fills (fun t => ∃ names : Place,
        w.files.LeadsTo (Path.join (Utf8.encode targetRoot) names.relativePath) t)
      w.files (leftBy (collect sourceRoot pattern targetRoot w)).files := by
  cases search : findMatches sourceRoot pattern w with
  | error e w₁ =>
      have same := findMatches_files sourceRoot pattern w
      rw [search] at same
      unfold collect
      rw [bind_of_error search, leftBy_error, show w₁.files = w.files from same]
      exact .refl _ _
  | ok paths w₁ =>
      have relative := relative_of_findMatches search
      obtain ⟨w₂, files, collects⟩ := collect_of_findMatches targetRoot search
      rw [collects, ← files]
      rw [← files] at steady
      have fills : Fills (fun t => ∃ names : Place,
            w₂.files.LeadsTo (Path.join (Utf8.encode targetRoot) names.relativePath) t)
          w₂.files (leftBy (copyAll sourceRoot targetRoot paths w₂)).files := by
        have copies :=
          copyAll_fills sourceRoot steady fun p there => descends_of_relative (relative p there)
        refine copies.mono ?_
        rintro t ⟨p, there, leads⟩
        obtain ⟨names, spelled⟩ := relative p there
        rw [encode_joinText, spelled] at leads
        exact ⟨names, leads⟩
      cases copied : copyAll sourceRoot targetRoot paths w₂ with
      | error e w₃ =>
          rw [bind_of_error copied]
          rwa [copied] at fills
      | ok _ w₃ =>
          rw [bind_of_ok copied]
          rwa [copied] at fills

/-! ## The manifest -/

variable {stagingDir workingDir : String} {files : List AuxFile} {f : AuxFile}

/-- A file that is known to be its own target is left alone. -/
theorem copyAuxFile_of_same
    (same : isSameFile w.files (joinText sourceRoot f.source)
      (f.destination stagingDir workingDir) = true) :
    ∃ w', copyAuxFile sourceRoot stagingDir workingDir f w = .ok () w' ∧ w'.files = w.files := by
  unfold copyAuxFile
  rw [bind_of_ok (show Work.view _ w = .ok _ w from rfl), if_pos same]
  exact Work.log_ok ..

/-- Any other file is copied. -/
theorem copyAuxFile_of_other
    (other : isSameFile w.files (joinText sourceRoot f.source)
      (f.destination stagingDir workingDir) ≠ true) :
    ∃ w₁, w₁.files = w.files ∧ copyAuxFile sourceRoot stagingDir workingDir f w =
      copyFile (joinText sourceRoot f.source) (f.destination stagingDir workingDir) w₁ := by
  unfold copyAuxFile
  rw [bind_of_ok (show Work.view _ w = .ok _ w from rfl), if_neg other]
  obtain ⟨w₁, logged, same⟩ := Work.log_ok .debug
    s!"auxiliary file {f.source} -> {f.destination stagingDir workingDir}" w
  exact ⟨w₁, same, bind_of_ok logged⟩

theorem copyAuxFile_ok (h : copyAuxFile sourceRoot stagingDir workingDir f w = .ok () w')
    (starts : w.files.Starts (Utf8.encode (joinText sourceRoot f.source)))
    (steady : w.files.Steady (Utf8.encode (f.destination stagingDir workingDir))) :
    (isSameFile w.files (joinText sourceRoot f.source) (f.destination stagingDir workingDir) =
        true ∧ w'.files = w.files) ∨
      ∃ d : Copied, d.source = Utf8.encode (joinText sourceRoot f.source) ∧
        d.target = Utf8.encode (f.destination stagingDir workingDir) ∧ d.Made w.files w'.files := by
  by_cases own : isSameFile w.files (joinText sourceRoot f.source)
    (f.destination stagingDir workingDir) = true
  · obtain ⟨w₁, done, same⟩ := copyAuxFile_of_same own
    cases done.symm.trans h
    exact .inl ⟨own, same⟩
  · obtain ⟨w₁, same, copies⟩ := copyAuxFile_of_other own
    rw [← same] at starts steady ⊢
    exact .inr (copyFile_ok (copies ▸ h) starts steady)

theorem copyAuxFile_fills (sourceRoot stagingDir workingDir : String) (f : AuxFile) (w : Workshop)
    (steady : w.files.Steady (Utf8.encode (f.destination stagingDir workingDir))) :
    Fills (fun t =>
        isSameFile w.files (joinText sourceRoot f.source) (f.destination stagingDir workingDir) =
          false ∧ w.files.LeadsTo (Utf8.encode (f.destination stagingDir workingDir)) t)
      w.files (leftBy (copyAuxFile sourceRoot stagingDir workingDir f w)).files := by
  by_cases own : isSameFile w.files (joinText sourceRoot f.source)
    (f.destination stagingDir workingDir) = true
  · obtain ⟨w₁, done, same⟩ := copyAuxFile_of_same own
    rw [done, leftBy_ok, same]
    exact .refl _ _
  · obtain ⟨w₁, same, copies⟩ := copyAuxFile_of_other own
    rw [← same] at own steady ⊢
    rw [copies]
    exact (copyFile_fills _ _ w₁ steady).mono fun t leads => ⟨by simpa using own, leads⟩

/-! ### The count -/

/-- Counts the files of a manifest. -/
def AuxReport.ofManifest (files : List AuxFile) : AuxReport where
  staged := files.countP (·.placement = .staged)
  workingDir := files.countP (·.placement = .workingDir)

/-- Counted one after the other, files are counted by where they go. -/
theorem AuxReport.foldl_count (report : AuxReport) (files : List AuxFile) :
    files.foldl (fun r f => r.count f.placement) report =
      ⟨report.staged + (ofManifest files).staged,
        report.workingDir + (ofManifest files).workingDir⟩ := by
  induction files generalizing report with
  | nil => rfl
  | cons f rest ih =>
      rw [List.foldl_cons, ih]
      cases placed : f.placement <;> simp [count, ofManifest, placed] <;> omega

/-- The loop copies the files in turn, and only counts besides. -/
theorem copyAuxFiles_go_eq (report : AuxReport) (files : List AuxFile) :
    copyAuxFiles.go sourceRoot stagingDir workingDir report files = (do
      forM files (copyAuxFile sourceRoot stagingDir workingDir)
      pure (files.foldl (fun r f => r.count f.placement) report)) := by
  induction files generalizing report with
  | nil => rfl
  | cons f rest ih => simp [copyAuxFiles.go, ih]

theorem copyAuxFiles_eq (sourceRoot : String) (files : List AuxFile)
    (stagingDir workingDir : String) : copyAuxFiles sourceRoot files stagingDir workingDir = (do
      forM files (copyAuxFile sourceRoot stagingDir workingDir)
      pure (.ofManifest files)) := by
  rw [copyAuxFiles, copyAuxFiles_go_eq, AuxReport.foldl_count]
  simp

theorem copyAuxFiles_eq_ok {report : AuxReport} :
    copyAuxFiles sourceRoot files stagingDir workingDir w = .ok report w' ↔
      forM files (copyAuxFile sourceRoot stagingDir workingDir) w = .ok () w' ∧
      report = .ofManifest files := by
  rw [copyAuxFiles_eq]
  constructor
  · intro h
    obtain ⟨_, w₁, all, last⟩ := bind_eq_ok.1 h
    cases last
    exact ⟨all, rfl⟩
  · rintro ⟨all, rfl⟩
    exact bind_of_ok all

/-! ### The copies -/

/-- Where no file is its own target, each is copied. -/
theorem copyAuxFiles_copies
    (h : forM files (copyAuxFile sourceRoot stagingDir workingDir) w = .ok () w')
    (starts : ∀ f ∈ files, w.files.Starts (Utf8.encode (joinText sourceRoot f.source)))
    (steady : ∀ f ∈ files, w.files.Steady (Utf8.encode (f.destination stagingDir workingDir)))
    (apart : ∀ f ∈ files, ∀ fs, w.files.Grows fs →
      isSameFile fs (joinText sourceRoot f.source) (f.destination stagingDir workingDir) = false) :
    ∃ ds, Copies ds w.files w'.files ∧
      ds.map (fun d => (d.source, d.target)) =
        files.map fun f =>
          (Utf8.encode (joinText sourceRoot f.source),
            Utf8.encode (f.destination stagingDir workingDir)) := by
  induction files generalizing w with
  | nil =>
      cases h
      exact ⟨[], .nil _, rfl⟩
  | cons f rest ih =>
      rw [List.forM_cons] at h
      obtain ⟨_, w₁, first, later⟩ := bind_eq_ok.1 h
      rcases copyAuxFile_ok first (starts f (List.mem_cons_self ..))
          (steady f (List.mem_cons_self ..)) with
        ⟨same, _⟩ | ⟨d, source, target, made⟩
      · -- The file would be its own target.
        simp [apart f (List.mem_cons_self ..) w.files (.refl _)] at same
      · have grown := made.delivers.toGrows
        obtain ⟨ds, copies, texts⟩ := ih later
          (fun g there => (starts g (List.mem_cons_of_mem _ there)).of_within grown.toWithin)
          (fun g there => (steady g (List.mem_cons_of_mem _ there)).of_within grown.toWithin)
          fun g there fs more => apart g (List.mem_cons_of_mem _ there) fs (grown.trans more)
        exact ⟨d :: ds, .cons made copies, by simp [source, target, texts]⟩

/-- Where the files of a manifest go that are not there already. -/
def AuxTargets (fs : FileSystem) (sourceRoot stagingDir workingDir : String) (files : List AuxFile)
    (t : Place) : Prop :=
  ∃ f ∈ files,
    isSameFile fs (joinText sourceRoot f.source) (f.destination stagingDir workingDir) = false ∧
      fs.LeadsTo (Utf8.encode (f.destination stagingDir workingDir)) t

theorem copyAuxFiles_fills (files : List AuxFile) (w : Workshop)
    (starts : ∀ f ∈ files, w.files.Starts (Utf8.encode (joinText sourceRoot f.source)))
    (steady : ∀ f ∈ files, w.files.Steady (Utf8.encode (f.destination stagingDir workingDir))) :
    Fills (AuxTargets w.files sourceRoot stagingDir workingDir files) w.files
      (leftBy (forM files (copyAuxFile sourceRoot stagingDir workingDir) w)).files := by
  induction files generalizing w with
  | nil => exact .refl _ _
  | cons f rest ih =>
      have first : Fills (AuxTargets w.files sourceRoot stagingDir workingDir (f :: rest)) w.files
          (leftBy (copyAuxFile sourceRoot stagingDir workingDir f w)).files :=
        (copyAuxFile_fills sourceRoot stagingDir workingDir f w
          (steady f (List.mem_cons_self ..))).mono fun t leads => ⟨f, List.mem_cons_self .., leads⟩
      rw [List.forM_cons]
      cases copied : copyAuxFile sourceRoot stagingDir workingDir f w with
      | error e w₁ =>
          rw [bind_of_error copied]
          rwa [copied] at first
      | ok _ w₁ =>
          rw [bind_of_ok copied]
          rw [copied, leftBy_ok] at first
          have later := ih w₁
            (fun g there => (starts g (List.mem_cons_of_mem _ there)).of_within first.toWithin)
            fun g there => (steady g (List.mem_cons_of_mem _ there)).of_within first.toWithin
          refine first.trans (later.mono ?_)
          rintro t ⟨g, there, other, leads⟩
          have member := List.mem_cons_of_mem f there
          refine ⟨g, member, ?_, first.toGrows.leadsTo_iff.1 leads⟩
          -- What was known to be the same file before is still known to be.
          by_contra same
          have := isSameFile_of_within first.toWithin (starts g member) (steady g member).starts
            (by simpa using same)
          simp [this] at other

end ClassPack
