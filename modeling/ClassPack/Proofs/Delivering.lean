import ClassPack.Proofs.Archiving
import ClassPack.Proofs.Entries
import ClassPack.Proofs.FileSystem.Succeeding
import ClassPack.Proofs.Finding
import ClassPack.Proofs.Preparing

/-!
# Delivering — steps of a run that cannot fail

* `Deliverable` — a file can be read under one text, and put where another one points:
  `copyFile_done`. Of many, none gets in the way of another if no target is below another:
  `copyAll_done`, `copyAuxFiles_done`, `collect_done`.

Where names and texts may be of any length,

* `prepareStaging_done` — a directory is made where a text points to nothing, and can be tried out;
* `findMatches_done` — a source root without links can be searched, and `leadsToFile_iff_of_plain`,
  what its files are;
* `zipArchiver_done` — a tree whose names are all texts can be packed.
-/

namespace ClassPack

open FileSystem

variable {fs gs : FileSystem} {p q t u : Place} {n : Name} {w : Workshop}
  {path source target : String} {content : Content} {ds : List Copied}

/-! ## Directories made anew -/

theorem recreateDir_done (points : w.files.Points (Utf8.encode path) t)
    (takes : w.files.Takes (Utf8.encode path)) (steady : w.files.Steady (Utf8.encode path))
    (passable : w.files.Passable t) (missing : w.files.at? t = none) :
    ∃ w', recreateDir path w = .ok () w' := by
  obtain ⟨gs, made⟩ := points.createDirs_ok takes steady passable
  have gone := points.removeTreeIfThere_missing takes passable missing
  exact ⟨_, bind_eq_ok.2 ⟨(), _, Work.files_of_ok gone, Work.files_of_ok made⟩⟩

/-- Where nothing is, nothing is taken away. -/
theorem FileSystem.Points.without_eq {text : Path} (points : fs.Points text t)
    (takes : fs.Takes text) (passable : fs.Passable t) (missing : fs.at? t = none) :
    fs.without text = fs := by
  simp [without, points.removeTreeIfThere_missing takes passable missing]

/-- In a directory just made the scratch file comes and goes. -/
theorem prepareStaging_done (points : w.files.Points (Utf8.encode path) t)
    (unbounded : w.files.Unbounded) (steady : w.files.Steady (Utf8.encode path))
    (passable : w.files.Passable t) (missing : w.files.at? t = none) :
    ∃ w', prepareStaging path w = .ok () w' := by
  have untouched := points.without_eq (unbounded.takes _) passable missing
  obtain ⟨w₁, made⟩ := recreateDir_done points (unbounded.takes _) steady passable missing
  obtain ⟨d, rebuilt⟩ := recreateDir_ok made points.ne_nil (by rwa [untouched])
  rw [untouched] at rebuilt
  have unbounded₁ := unbounded.of_within rebuilt.raised.toWithin
  have starts₁ : w₁.files.Starts (Utf8.encode (joinText path scratchName)) :=
    (steady.starts.of_within rebuilt.raised.toWithin).joinText descends_scratchName
  -- The scratch file is an entry of the new directory, and its text ends in its name.
  obtain ⟨n, single⟩ := segments_scratchName
  have inward : Path.Inward (Utf8.encode scratchName) :=
    { toDescends := descends_scratchName, noZero := by decide,
      ends := ⟨[], n, by simpa using single⟩ }
  have scratch : w₁.files.Points (Utf8.encode (joinText path scratchName)) (d ++ [n]) := by
    rw [encode_joinText]
    simpa [single] using rebuilt.arrives.points_join rebuilt.at?_self inward
  have noSlash : Path.endsInSlash (Utf8.encode (joinText path scratchName)) = false := by
    rw [encode_joinText, Path.endsInSlash_join descends_scratchName.relative (by decide)]
    decide
  have directory : ∀ u m, d ++ [n] = u ++ [m] → w₁.files.at? u = some .directory := fun u m same =>
    (List.append_inj' same rfl).1 ▸ rebuilt.at?_self
  obtain ⟨site, opened, opening⟩ :=
    scratch.openForWriting_ok (unbounded₁.takes _) directory (.inl (rebuilt.at?_below n [])) noSlash
  obtain ⟨filled, _⟩ := wrote_fill (.plain (Utf8.encode scratchText)) opening
  have writing : writeFile (Utf8.encode (joinText path scratchName))
      (.plain (Utf8.encode scratchText)) w₁.files = .ok ()
      (opened.put site.1 site.2 (.file (.plain (Utf8.encode scratchText)))) := by
    unfold writeFile
    rw [bind_of_ok opening, filled]
  generalize opened.put site.1 site.2 (.file (.plain (Utf8.encode scratchText))) = gs at writing
  obtain ⟨t', writes, wrote⟩ := writeFile_ok writing
  obtain rfl := writesAt_scratch rebuilt single writes
  have grown := (wrote.grows writes.free).toWithin
  obtain ⟨hs, unlinked⟩ := (scratch.of_within grown starts₁).unlink_ok_of_file
    ((unbounded₁.of_within grown).takes _) (by rw [wrote.at?, if_pos rfl]) noSlash
  have taken : atomically (·.unlink (Utf8.encode (joinText path scratchName))) gs = .ok () hs := by
    simp [atomically, unlinked]
  exact ⟨_, bind_eq_ok.2 ⟨(), w₁, made,
    bind_eq_ok.2 ⟨(), _, Work.files_of_ok writing, Work.files_of_ok taken⟩⟩⟩

/-! ## Copies -/

/-- A file can be read where `source` leads, and put where `target` points, which is not too
long. -/
structure Deliverable (fs : FileSystem) (source target : String) (t : Place) : Prop where
  starts : fs.Starts (Utf8.encode source)
  steady : fs.Steady (Utf8.encode target)
  reads : ∃ s content, fs.Arrives (Utf8.encode source) s ∧ fs.at? s = some (.file content)
  points : fs.Points (Utf8.encode target) t
  takes : fs.Takes (Utf8.encode target)
  noSlash : Path.endsInSlash (Utf8.encode target) = false
  room : fs.HasRoom t

namespace Deliverable

theorem of_delivers (h : Deliverable fs source target t) (delivers : Delivers q content fs gs)
    (level : Place.Level q t) : Deliverable gs source target t where
  starts := h.starts.of_within delivers.toWithin
  steady := h.steady.of_within delivers.toWithin
  reads := by
    obtain ⟨s, content, arrive, file⟩ := h.reads
    obtain ⟨content', file'⟩ := delivers.file file
    exact ⟨s, content', arrive.of_within delivers.toWithin h.starts, file'⟩
  points := h.points.of_within delivers.toWithin h.steady.starts
  takes := h.takes.of_within delivers.toWithin
  noSlash := h.noSlash
  room := h.room.of_delivers delivers level

theorem of_copies (h : Deliverable fs source target t) (copies : Copies ds fs gs)
    (level : ∀ d ∈ ds, Place.Level d.place t) : Deliverable gs source target t := by
  induction copies with
  | nil _ => exact h
  | cons made _ ih =>
      obtain ⟨here, later⟩ := List.forall_mem_cons.1 level
      exact ih (h.of_delivers made.delivers here) later

end Deliverable

theorem copyFile_done (h : Deliverable w.files source target t) :
    ∃ w' content, copyFile source target w = .ok () w' ∧ Delivers t content w.files w'.files := by
  obtain ⟨u, n, rfl⟩ := h.points.exists_name
  obtain ⟨upper, above⟩ := h.points.exists_upper
  obtain ⟨gs, made, raised⟩ := h.points.createDirs_upper above h.takes h.steady h.room.passable
  have within := raised.toWithin
  -- With the directories above made, the source is read and the target opened as before.
  obtain ⟨s, reading⟩ : ∃ s, gs.readingSite (Utf8.encode source) = .ok s := by
    obtain ⟨s, content, arrive, file⟩ := h.reads
    exact ⟨s, readingSite_eq_ok_iff.2 ⟨arrive.of_within within h.starts, within.file file⟩⟩
  have free : gs.at? (u ++ [n]) = w.files.at? (u ++ [n]) := by
    rw [raised.at?, if_neg]
    intro higher
    have shorter := higher.length_le
    simp only [List.length_append, List.length_singleton] at shorter
    omega
  have directory : ∀ u' n', u ++ [n] = u' ++ [n'] → gs.at? u' = some .directory := by
    intro u' n' same
    obtain rfl := (List.append_inj' same rfl).1
    simp [raised.at?]
  obtain ⟨site, opened, opening⟩ := (h.points.of_within within h.steady.starts).openForWriting_ok
    (h.takes.of_within within) directory (by rw [free]; exact h.room.free) h.noSlash
  obtain ⟨hs, copied⟩ := copy_ok_of_open reading opening
  obtain ⟨w', done⟩ : ∃ w', copyFile source target w = .ok () w' := by
    obtain ⟨w₀, logged, same⟩ := Work.log_ok .trace s!"copy {source} -> {target}" w
    unfold copyFile
    rw [bind_of_ok logged, above.parent]
    exact ⟨_, bind_eq_ok.2 ⟨(), _, Work.files_of_ok (by rw [same]; exact made),
      Work.files_of_ok copied⟩⟩
  obtain ⟨d, _, target', made'⟩ := copyFile_ok done h.starts h.steady
  -- A copy goes where its text leads.
  have leads : w.files.LeadsTo (Utf8.encode target) (u ++ [n]) :=
    h.points.leadsTo h.room.above h.room.not_link
  have place := (made'.delivers.toGrows.leadsTo_iff.1 (target' ▸ made'.target.leads)).unique leads
  exact ⟨w', d.content, done, place ▸ made'.delivers⟩

section Many

variable {sourceRoot targetRoot stagingDir workingDir : String}

/-- Copies go well one after the other if no target is below another. -/
theorem copyAll_done {paths : List String} (place : String → Place)
    (ready : ∀ path ∈ paths,
      Deliverable w.files (joinText sourceRoot path) (joinText targetRoot path) (place path))
    (level : ∀ a ∈ paths, ∀ b ∈ paths, Place.Level (place a) (place b)) :
    ∃ w', copyAll sourceRoot targetRoot paths w = .ok () w' := by
  induction paths generalizing w with
  | nil => exact ⟨w, rfl⟩
  | cons path rest ih =>
      obtain ⟨here, later⟩ := List.forall_mem_cons.1 ready
      obtain ⟨w₁, content, copied, delivers⟩ := copyFile_done here
      obtain ⟨w', done⟩ := ih
        (fun b there => (later b there).of_delivers delivers
          (level path (List.mem_cons_self ..) b (List.mem_cons_of_mem _ there)))
        fun a ha b hb => level a (List.mem_cons_of_mem _ ha) b (List.mem_cons_of_mem _ hb)
      exact ⟨w', bind_eq_ok.2 ⟨(), w₁, copied, done⟩⟩

/-- A file of a manifest is copied, or left alone if it is its own target. -/
theorem copyAuxFile_done {f : AuxFile}
    (ready : Deliverable w.files (joinText sourceRoot f.source)
      (f.destination stagingDir workingDir) t) :
    ∃ w', copyAuxFile sourceRoot stagingDir workingDir f w = .ok () w' ∧
      (w'.files = w.files ∨ ∃ content, Delivers t content w.files w'.files) := by
  by_cases own : isSameFile w.files (joinText sourceRoot f.source)
    (f.destination stagingDir workingDir) = true
  · obtain ⟨w', done, same⟩ := copyAuxFile_of_same own
    exact ⟨w', done, .inl same⟩
  · obtain ⟨w₁, same, copies⟩ := copyAuxFile_of_other own
    rw [← same] at ready ⊢
    obtain ⟨w', content, copied, delivers⟩ := copyFile_done ready
    exact ⟨w', copies.trans copied, .inr ⟨content, delivers⟩⟩

theorem copyAuxFiles_done {files : List AuxFile} (place : AuxFile → Place)
    (ready : ∀ f ∈ files,
      Deliverable w.files (joinText sourceRoot f.source) (f.destination stagingDir workingDir)
      (place f))
    (level : ∀ f ∈ files, ∀ g ∈ files, Place.Level (place f) (place g)) :
    ∃ w', forM files (copyAuxFile sourceRoot stagingDir workingDir) w = .ok () w' := by
  induction files generalizing w with
  | nil => exact ⟨w, rfl⟩
  | cons f rest ih =>
      obtain ⟨here, later⟩ := List.forall_mem_cons.1 ready
      have others : ∀ g ∈ rest, ∀ h ∈ rest, Place.Level (place g) (place h) := fun g hg h hh =>
        level g (List.mem_cons_of_mem _ hg) h (List.mem_cons_of_mem _ hh)
      obtain ⟨w₁, copied, same | ⟨content, delivers⟩⟩ := copyAuxFile_done here
      · obtain ⟨w', done⟩ := ih (w := w₁) (by rw [same]; exact later) others
        exact ⟨w', bind_eq_ok.2 ⟨(), w₁, copied, done⟩⟩
      · obtain ⟨w', done⟩ := ih
          (fun g there => (later g there).of_delivers delivers
            (level f (List.mem_cons_self ..) g (List.mem_cons_of_mem _ there))) others
        exact ⟨w', bind_eq_ok.2 ⟨(), w₁, copied, done⟩⟩

end Many

/-! ## Searching -/

/-- Names that lead to a file are read with their root, if the text is not too long. -/
theorem FileSystem.LeadsToFile.arrives {root : Path} {names : Place}
    (leads : fs.LeadsToFile root names) (inner : names ≠ [])
    (short : exceeds (root.join names.relativePath).length fs.limits.path = false) :
    ∃ p content, fs.Arrives (root.join names.relativePath) p ∧ fs.at? p = some (.file content) := by
  obtain ⟨here, there, content, resolved, followed, file⟩ := leads
  obtain ⟨fit, way⟩ := resolve_eq_ok_iff.1 resolved
  obtain ⟨m, front, stay⟩ := follow_prefix way
  obtain rfl : here = m := follow_slash_ok stay
  have inward := Path.inward_relativePath inner
  have some_ := Path.join_ne_nil root inward.ne_nil
  have noZero := Path.zero_not_mem_join (zero_not_mem_of_vet fit) inward.noZero
  refine ⟨there.place, content, ⟨there.links,
    resolve_eq_ok_iff.2 ⟨by simp [vet, noZero, some_, short], ?_⟩⟩, file⟩
  rw [Path.steps, Path.endsInSlash_join_relativePath root inner, Path.segments_join inward.relative,
    Path.origin_join inward.relative, Path.segments_relativePath, if_neg (by simp), List.append_nil,
    follow_append, front]
  exact followed

/-- Of two lists of names that lead to files, neither goes on where the other ends. -/
theorem FileSystem.LeadsToFile.level {root : Path} {names names' : Place}
    (leads : fs.LeadsToFile root names) (leads' : fs.LeadsToFile root names') :
    Place.Level names names' := by
  -- The longer one would enter a file.
  have ends : ∀ {names names' : Place}, fs.LeadsToFile root names → fs.LeadsToFile root names' →
      names <+: names' → names = names' := by
    rintro names _ ⟨here, there, content, resolved, followed, file⟩ ⟨here', _, _, resolved',
      followed', _⟩ ⟨r, rfl⟩
    obtain rfl : here = here' := by simpa [resolved] using resolved'
    cases r with
    | nil => simp
    | cons n r =>
        rw [List.map_append, follow_append, followed] at followed'
        have entered := at?_of_enterable (follow_name_ok followed').1
        simp [file] at entered
  exact ⟨fun above => ends leads leads' above, fun below => (ends leads' leads below).symm⟩

/-- Names lead to the files that stand there. -/
theorem FileSystem.leadsToFile_iff_of_plain {root : Path} {names : Place}
    (arrive : fs.Arrives root p) (plain : ∀ r target, fs.at? (p ++ r) ≠ some (.link target)) :
    fs.LeadsToFile root names ↔ ∃ content, fs.at? (p ++ names) = some (.file content) := by
  obtain ⟨links, resolved⟩ := arrive
  constructor
  · rintro ⟨here, there, content, resolved', followed, file⟩
    obtain rfl : (⟨p, links⟩ : Standing) = here := by simpa [resolved] using resolved'
    have leads : fs.Leads p (names.map .name) (p ++ names) := by
      simpa using Leads.of_plain (s := names.map .name) plain (by simp)
    rw [(Leads.of_follow followed).unique leads] at file
    exact ⟨content, file⟩
  · rintro ⟨content, file⟩
    exact ⟨⟨p, links⟩, ⟨p ++ names, links⟩, content, resolved,
      follow_of_plain links (fun r _ => plain r) (by simp [file]), file⟩

/-- A source root without links can be searched. -/
theorem findMatches_done {root : String} {pattern : ArtifactPattern} {selector : Selector}
    (unbounded : w.files.Unbounded) (arrive : w.files.Arrives (Utf8.encode root) p)
    (directory : w.files.at? p = some .directory)
    (plain : ∀ r target, w.files.at? (p ++ r) ≠ some (.link target))
    (compiled : pattern.compile = .ok selector) :
    ∃ paths w', findMatches root pattern w = .ok paths w' := by
  have whole : (untilError (visits w.files root)).2 = none :=
    untilError_of_steady (walk_steady unbounded arrive directory plain)
  unfold findMatches
  rw [compiled, bind_of_ok (show Work.ofExcept (.ok selector) w = .ok selector w from rfl),
    bind_of_ok (show Work.view _ w = .ok _ w from rfl)]
  dsimp only
  rw [bind_of_ok (show Work.logAll _ _ w = .ok () _ from rfl), whole]
  exact ⟨_, _, rfl⟩

theorem collect_done {sourceRoot targetRoot : String} {pattern : ArtifactPattern}
    {paths : List String} {w' : Workshop} (place : String → Place)
    (search : findMatches sourceRoot pattern w = .ok paths w') (ready : ∀ path ∈ paths,
      Deliverable w.files (joinText sourceRoot path) (joinText targetRoot path) (place path))
    (level : ∀ a ∈ paths, ∀ b ∈ paths, Place.Level (place a) (place b)) :
    ∃ w'', collect sourceRoot pattern targetRoot w = .ok paths w'' := by
  obtain ⟨w₁, files, collects⟩ := collect_of_findMatches targetRoot search
  rw [← files] at ready
  obtain ⟨w₂, copied⟩ := copyAll_done place ready level
  exact ⟨w₂, collects.trans (bind_of_ok copied)⟩

/-! ## Packing -/

/-- Names that are texts make a text together. -/
theorem Place.exists_encode_eq {names : Place} (texts : ∀ n ∈ names, n.text?.isSome = true) :
    ∃ text, Utf8.encode text = names.relativePath := by
  induction names with
  | nil => exact ⟨"", rfl⟩
  | cons n rest ih =>
      obtain ⟨here, later⟩ := List.forall_mem_cons.1 texts
      obtain ⟨a, spelled⟩ := Option.isSome_iff_exists.1 here
      have first : Utf8.encode a = n.bytes := Utf8.encode_of_decode? spelled
      by_cases inner : rest = []
      · subst inner
        exact ⟨a, first⟩
      · obtain ⟨b, onward⟩ := ih later
        refine ⟨a ++ "/" ++ b, ?_⟩
        rw [relativePath_cons inner, ← first, ← onward]
        simp [show Utf8.encode "/" = [slash] by decide]

/-- A tree of names that are texts, and of files that an entry takes, can be packed into a
file beside it. -/
theorem zipArchiver_done {staged archive : String} {st : Place} (unbounded : w.files.Unbounded)
    (points : w.files.Points (Utf8.encode archive) (u ++ [n]))
    (noSlash : Path.endsInSlash (Utf8.encode archive) = false)
    (directory : w.files.at? u = some .directory)
    (free : w.files.at? (u ++ [n]) = none ∨
      ∃ content, w.files.at? (u ++ [n]) = some (.file content))
    (starts : w.files.Starts (Utf8.encode staged))
    (arrives : w.files.Arrives (Utf8.encode staged) st) (tree : w.files.at? st = some .directory)
    (aside : ¬ st <+: u ++ [n]) (texts : ∀ names, w.files.at? (st ++ names) ≠ none →
      ∀ n ∈ names, n.text?.isSome = true)
    (sizes : ∀ names content, w.files.at? (st ++ names) = some (.file content) →
      w.files.limits.fitsEntry content = true) :
    ∃ w', zipArchiver.pack staged archive w = .ok () w' := by
  obtain ⟨upper, above⟩ := points.exists_upper
  have dirs : makeArchiveDirs archive w = .ok () w := by
    unfold makeArchiveDirs
    rw [above.parent]
    exact Work.files_of_ok (points.createDirs_upper_of_directory above
      (unbounded.takes _) directory)
  obtain ⟨site, opened, opening⟩ := points.openForWriting_ok (unbounded.takes _)
    (fun u' n' same => (List.append_inj' same rfl).1 ▸ directory) free noSlash
  obtain ⟨writes, wrote, _⟩ := openForWriting_ok opening
  have grown := (wrote.grows writes.free).toWithin
  -- The archive, open and empty, is no part of the tree.
  have place : site.1 ++ [site.2] = u ++ [n] := writes.leads.unique (points.leadsTo
    (fun q higher other => by
      rcases List.prefix_concat_iff.1 higher with here | higher
      · exact absurd here other
      · exact Passable.of_directory directory q higher)
    fun target isLink => by rcases free with missing | ⟨_, file⟩ <;> simp_all)
  have same : ∀ names, opened.at? (st ++ names) = w.files.at? (st ++ names) := fun names => by
    rw [wrote.at?, if_neg]
    intro here
    exact aside (place ▸ here ▸ List.prefix_append ..)
  have fine : (packListing opened staged (opened.listing (Utf8.encode staged))).fault = none := by
    have arrives' := arrives.of_within grown starts
    have fit : ∀ r : Place, r ≠ [] → opened.at? (st ++ r) ≠ none →
        opened.vet (Path.join (Utf8.encode staged) r.relativePath) = .ok () := by
      intro r inner _
      obtain ⟨links, way⟩ := arrives'
      have inward := Path.inward_relativePath inner
      exact (unbounded.of_within grown).vet
        (Path.zero_not_mem_join (zero_not_mem_of_vet (resolve_eq_ok_iff.1 way).1) inward.noZero)
        (Path.join_ne_nil _ inward.ne_nil)
    rw [listing_eq arrives' (grown.directory tree) fit]
    refine packListing_of_fits fun item there => ?_
    obtain ⟨⟨names, e⟩, lower, rfl⟩ := List.mem_map.1 there
    obtain ⟨inner, stands⟩ := mem_below.1 lower
    rw [same] at stands
    refine ⟨Place.exists_encode_eq (texts names (by simp [stands])), fun _ _ => fit names inner
      (by simp [same, stands]), fun content file => ?_⟩
    rw [grown.limits]
    exact sizes names content (by rw [stands, show e = .file content from file])
  exact (zipArchiver_of_open staged dirs opening).2.2 fine

end ClassPack
