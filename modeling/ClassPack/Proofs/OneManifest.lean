import ClassPack.Proofs.EntryOrder

/-!
# OneManifest — the manifest of an archive, and whether the archive can be unpacked

Whether the tree has a manifest is asked by its text, links followed, and what is packed is listed
without following links. The two fit together unless links or other entries stand at one of two
places of the tree.

* `FileSystem.Surveyed` — what is known of a staged tree, links in it or not, once it was packed to
  its end: `surveyed_of_packed`;
* `manifestsIn_eq` — the manifests among the entries, told by whether the tree has a manifest
  and whether that is one of its own files; `unpacks_iff` — when no file stands where an entry
  needs a directory;
* `manifest_packed_iff` — both for the archives that the library makes itself.
  `manifest_missing_or_misplaced` has trees for which they fail.
-/

namespace ClassPack

open FileSystem

variable {fs : FileSystem} {st p q r : Place} {text : Path} {staged archive : String}
  {w w' : Workshop}

/-! ## Trees that were packed -/

namespace FileSystem

/-- The entries that what lies below a staged directory becomes, one after the other. -/
def treeEntries (fs : FileSystem) (st : Place) : ArchiveEntries :=
  (fs.below st).flatMap fun (r, e) => e.packed r

theorem mem_treeEntries {a : String × Content} :
    a ∈ fs.treeEntries st ↔ ∃ r : Place, r ≠ [] ∧
      (fs.at? (st ++ r) = some .directory ∧ a = (r.spelling ++ "/", .plain []) ∨
        fs.at? (st ++ r) = some (.file a.2) ∧ a.1 = r.spelling) := by
  simp only [treeEntries, List.mem_flatMap, Prod.exists, mem_below]
  constructor
  · rintro ⟨r, e, ⟨inner, there⟩, packed⟩
    refine ⟨r, inner, ?_⟩
    cases e with
    | directory => exact .inl ⟨there, List.mem_singleton.1 packed⟩
    | file content =>
        obtain rfl := List.mem_singleton.1 packed
        exact .inr ⟨there, rfl⟩
    | link target => cases packed
  · rintro ⟨r, inner, ⟨there, rfl⟩ | ⟨there, spelled⟩⟩
    · exact ⟨r, .directory, ⟨inner, there⟩, List.mem_singleton_self _⟩
    · exact ⟨r, .file a.2, ⟨inner, there⟩, List.mem_singleton.2 (Prod.ext spelled rfl)⟩

/-- A staged tree whose names are texts and whose directories and files, links apart, can be reached
by their own. -/
structure Surveyed (fs : FileSystem) (text : Path) (st : Place) : Prop where
  arrives : fs.Arrives text st
  directory : fs.at? st = some .directory
  spelled : ∀ r : Place, fs.at? (st ++ r) ≠ none → Utf8.encode r.spelling = r.relativePath
  fits : ∀ r : Place, r ≠ [] → fs.at? (st ++ r) = some .directory ∨
    (∃ content, fs.at? (st ++ r) = some (.file content)) →
    fs.vet (text.join r.relativePath) = .ok ()

/-- What a directory's listing is when nothing stumbles: all that lies below, and no directory is
out of reach. -/
theorem listing_of_whole {items : List Listed} (arrives : fs.Arrives text st)
    (directory : fs.at? st = some .directory) (whole : fs.listing text = items.map .ok) :
    items = (fs.below st).map (fun (r, e) => (⟨r, text.join r.relativePath, e⟩ : Listed)) ∧
      ∀ r : Place, r ≠ [] → fs.at? (st ++ r) = some .directory →
        fs.vet (text.join r.relativePath) = .ok () := by
  obtain ⟨links, way⟩ := arrives
  have found : fs.lookup text = .ok (⟨st, links⟩, .directory) := lookup_eq_ok_iff.2 ⟨way, directory⟩
  unfold listing at whole
  simp only [found] at whole
  -- A directory that is out of reach would have left an error in the listing.
  have fits : ∀ r : Place, r ≠ [] → fs.at? (st ++ r) = some .directory →
      fs.vet (text.join r.relativePath) = .ok () := by
    intro r inner there
    cases fit : fs.vet (text.join r.relativePath) with
    | ok _ => rfl
    | error e =>
        have stumbled : (.error (.io (text.join r.relativePath) e) : Except WalkFault Listed) ∈
            items.map .ok := by
          rw [← whole]
          refine List.mem_flatMap.2 ⟨(r, .directory), mem_below.2 ⟨inner, there⟩, ?_⟩
          simp [fit]
        simp at stumbled
  refine ⟨?_, fits⟩
  have each : ((fs.below st).map fun (r, e) => (⟨r, text.join r.relativePath, e⟩ : Listed)).map
      (.ok : Listed → Except WalkFault Listed) = items.map .ok := by
    rw [← whole, List.map_map, List.map_eq_flatMap]
    refine List.flatMap_congr ?_
    rintro ⟨r, e⟩ lower
    obtain ⟨inner, there⟩ := mem_below.1 lower
    cases e with
    | directory => simp [fits r inner there]
    | file content => rfl
    | link target => rfl
  exact (List.map_injective_iff.2 (fun _ _ => Except.ok.inj) each).symm

/-- A tree that was packed to its end was surveyed, and its entries are those of what lies below
it. -/
theorem surveyed_of_packed (arrives : fs.Arrives (Utf8.encode staged) st)
    (directory : fs.at? st = some .directory)
    (packed : (packListing fs staged (fs.listing (Utf8.encode staged))).fault = none) :
    fs.Surveyed (Utf8.encode staged) st ∧
      (packListing fs staged (fs.listing (Utf8.encode staged))).entries = fs.treeEntries st := by
  obtain ⟨items, whole, fine⟩ := packListing_fault_eq_none_iff.1 packed
  obtain ⟨rfl, fits⟩ := listing_of_whole arrives directory whole
  have item : ∀ {r : Place} {e : Entry}, r ≠ [] → fs.at? (st ++ r) = some e →
      (⟨r, Path.join (Utf8.encode staged) r.relativePath, e⟩ : Listed) ∈
        (fs.below st).map fun (r, e) =>
          (⟨r, Path.join (Utf8.encode staged) r.relativePath, e⟩ : Listed) :=
    fun inner there => List.mem_map.2 ⟨(_, _), mem_below.2 ⟨inner, there⟩, rfl⟩
  refine ⟨⟨arrives, directory, fun r there => ?_, fun r inner kind => ?_⟩, ?_⟩
  · by_cases inner : r = []
    · subst inner
      decide
    · obtain ⟨e, stands⟩ := Option.ne_none_iff_exists'.1 there
      obtain ⟨name, spelled⟩ := (fine _ (item inner stands)).text
      rw [Place.spelling_eq spelled, spelled]
  · rcases kind with there | ⟨content, there⟩
    · exact fits r inner there
    · exact (fine _ (item inner there)).path content rfl
  · rw [whole, packListing_entries fine, List.flatMap_map]
    rfl

/-- Whatever stands above something that is no link is no link either. -/
theorem plain_above (there : fs.at? (st ++ r) ≠ none)
    (own : ∀ target, fs.at? (st ++ r) ≠ some (.link target)) (r' : Place) (above : r' <+: r)
    (target : Path) : fs.at? (st ++ r') ≠ some (.link target) := by
  intro isLink
  by_cases here : r' = r
  · exact own target (here ▸ isLink)
  · have directory :=
      at?_of_above there ((List.prefix_append_right_inj st).2 above) (by simpa using here)
    simp [directory] at isLink

theorem isFile_iff_read? : fs.isFile text = true ↔ ∃ content, fs.read? text = some content := by
  rw [isFile_iff]
  constructor
  · rintro ⟨p, content, arrives, there⟩
    exact ⟨content, read?_eq_some_iff.2 ⟨p, arrives, there⟩⟩
  · rintro ⟨content, read⟩
    obtain ⟨p, arrives, there⟩ := read?_eq_some_iff.1 read
    exact ⟨p, content, arrives, there⟩

namespace Surveyed

section Texts

variable (tree : fs.Surveyed text st)

include tree

theorem read?_of_file {content : Content} (inner : r ≠ [])
    (there : fs.at? (st ++ r) = some (.file content)) :
    fs.read? (text.join r.relativePath) = some content :=
  read?_eq_some_iff.2 ⟨_, tree.arrives.join_place inner (tree.fits r inner (.inr ⟨content, there⟩))
    (plain_above (by simp [there]) (by simp [there])) (by simp [there]), there⟩

theorem isDir_of_directory (inner : r ≠ []) (there : fs.at? (st ++ r) = some .directory) :
    fs.isDir (text.join r.relativePath) = true :=
  isDir_iff.2 ⟨_, tree.arrives.join_place inner (tree.fits r inner (.inl there))
    (plain_above (by simp [there]) (by simp [there])) (by simp [there]), there⟩

/-- Down a way without links, a text reads what stands there. -/
theorem at?_of_read? {content : Content}
    (plain : ∀ r', r' <+: r → ∀ target, fs.at? (st ++ r') ≠ some (.link target))
    (read : fs.read? (text.join r.relativePath) = some content) :
    fs.at? (st ++ r) = some (.file content) := by
  obtain ⟨p, arrives, there⟩ := read?_eq_some_iff.1 read
  rwa [tree.arrives.eq_of_join_place plain arrives] at there

end Texts

end Surveyed
end FileSystem

/-! ## Names above names -/

/-- Whatever is named below a name stands below the place of that name, or is the directory
there. -/
theorem Place.prefix_of_below {a b : String} (inner : p ≠ [])
    (spelled : Utf8.encode a = p.relativePath) (spells : q.Spells b)
    (below : Utf8.encode a ++ [slash] <+: Utf8.encode b) : p <+: q := by
  obtain ⟨rest, whole⟩ := below
  have split : Path.pieces (Utf8.encode b) = p.map Name.bytes ++ Path.pieces rest := by
    obtain ⟨n, more, rfl⟩ := List.exists_cons_of_ne_nil inner
    rw [← whole, List.append_assoc, List.singleton_append, Path.pieces_append_slash, spelled,
      Path.pieces_relativePath]
  have bytes : Function.Injective Name.bytes := fun m n same => by
    cases m
    cases n
    simp_all
  have prefix_ : p.map Name.bytes <+: q.map Name.bytes := by
    rcases spells with whole | whole
    · exact ⟨_, split.symm.trans whole⟩
    · -- What comes after the last slash is empty.
      obtain ⟨front, last, ends⟩ :=
        (List.eq_nil_or_concat' (Path.pieces rest)).resolve_left (Path.pieces_ne_nil rest)
      rw [split, ends, ← List.append_assoc] at whole
      exact ⟨front, (List.append_inj' whole rfl).1⟩
  obtain ⟨more, same⟩ := prefix_
  obtain ⟨l, l', rfl, first, _⟩ := List.map_eq_append_iff.1 same.symm
  rw [List.map_injective_iff.2 bytes first]
  exact List.prefix_append ..

/-- Names that end in a slash are those of directories. -/
theorem endsInSlash_append_slash (name : String) :
    Path.endsInSlash (Utf8.encode (name ++ "/")) = true := by
  simp [Path.endsInSlash, show Utf8.encode "/" = [slash] by decide]

/-- No name is below itself. -/
theorem not_below_self (name : Path) : ¬ name ++ [slash] <+: name := fun below => by
  have shorter := below.length_le
  rw [List.length_append, List.length_singleton] at shorter
  omega

/-- What is named below a name of the tree makes that the name of a directory. -/
theorem FileSystem.Surveyed.directory_of_below {a : String} {b : String × Content}
    (tree : fs.Surveyed text st) (inner : p ≠ []) (spelled : Utf8.encode a = p.relativePath)
    (there : b ∈ fs.treeEntries st) (below : Utf8.encode a ++ [slash] <+: Utf8.encode b.1) :
    fs.at? (st ++ p) = some .directory := by
  obtain ⟨r, some_, ⟨stands, rfl⟩ | ⟨stands, named⟩⟩ := mem_treeEntries.1 there
  · have spells := Place.spells_append_slash some_ (tree.spelled r (by simp [stands]))
    have above := Place.prefix_of_below inner spelled spells below
    by_cases here : p = r
    · rw [here, stands]
    · exact at?_of_above (by simp [stands]) ((List.prefix_append_right_inj st).2 above)
        (by simpa using here)
  · have own : Utf8.encode b.1 = r.relativePath := by rw [named, tree.spelled r (by simp [stands])]
    have above := Place.prefix_of_below inner spelled (Place.spells_of_encode some_ own) below
    refine at?_of_above (by simp [stands]) ((List.prefix_append_right_inj st).2 above) fun here =>
      ?_
    obtain rfl := List.append_cancel_left here
    rw [own, spelled] at below
    exact not_below_self _ below

/-! ## The two places -/

/-- The text under which the manifest of a staged tree is looked for. -/
def manifestPath (staged : String) : Path := Utf8.encode (joinText staged manifestName)

theorem manifestPath_eq (staged : String) :
    manifestPath staged = Path.join (Utf8.encode staged) manifestPlace.relativePath := by
  rw [manifestPath, encode_joinText,
    show manifestPlace.relativePath = Utf8.encode manifestName by decide]

theorem mem_prologue_iff {a : String × Content} :
    a ∈ prologue fs staged ↔ fs.isFile (manifestPath staged) = false ∧
      (a = (manifestName, .plain (Utf8.encode manifestText)) ∨
        fs.isDir (Utf8.encode (joinText staged manifestDir)) = false ∧
        a = (manifestDir ++ "/", .plain [])) := by
  unfold prologue manifestPath
  split
  · rename_i there
    simp [there]
  · rename_i missing
    split
    · rename_i isDir
      simp [missing, isDir]
    · rename_i noDir
      simp [missing, noDir, or_comm]

section Manifest

variable (tree : fs.Surveyed (Utf8.encode staged) st)

include tree

theorem read?_manifest {content : Content}
    (there : fs.at? (st ++ manifestPlace) = some (.file content)) :
    fs.read? (manifestPath staged) = some content := by
  rw [manifestPath_eq]
  exact tree.read?_of_file (by decide) there

theorem isDir_manifestDir (there : fs.at? (st ++ manifestPlace.parent) = some .directory) :
    fs.isDir (Utf8.encode (joinText staged manifestDir)) = true := by
  rw [encode_joinText, show Utf8.encode manifestDir = manifestPlace.parent.relativePath by decide]
  exact tree.isDir_of_directory (by decide) there

/-- No file is read as the manifest where its place is a directory, or that of its directory a
file. -/
theorem isFile_manifest_eq_false (other : fs.at? (st ++ manifestPlace) = some .directory ∨
      ∃ content, fs.at? (st ++ manifestPlace.parent) = some (.file content)) :
    fs.isFile (manifestPath staged) = false := by
  by_contra there
  obtain ⟨content, read⟩ := isFile_iff_read?.1 (by simpa using there)
  rw [manifestPath_eq] at read
  rcases other with directory | ⟨content', file⟩
  · have stands := tree.at?_of_read? (plain_above (by simp [directory]) (by simp [directory])) read
    simp [directory] at stands
  · -- Below a file there is nothing, and so no link.
    obtain ⟨n, last⟩ : ∃ n, manifestPlace = manifestPlace.parent ++ [n] := ⟨_, rfl⟩
    have missing : fs.at? (st ++ manifestPlace) = none := by
      rw [last, ← List.append_assoc]
      exact at?_below_eq_none (by simp [file]) n []
    have plain : ∀ r', r' <+: manifestPlace →
        ∀ target, fs.at? (st ++ r') ≠ some (.link target) := by
      intro r' above
      rw [last, List.prefix_concat_iff, ← last] at above
      rcases above with rfl | above
      · simp [missing]
      · exact plain_above (by simp [file]) (by simp [file]) r' above
    have stands := tree.at?_of_read? plain read
    simp [missing] at stands

/-- What comes first has a name that no entry of the tree has. -/
theorem prologue_ne {a b : String × Content} (first : a ∈ prologue fs staged)
    (there : b ∈ fs.treeEntries st) : a.1 ≠ b.1 := by
  intro same
  obtain ⟨noFile, own⟩ := mem_prologue_iff.1 first
  obtain ⟨r, inner, kinds⟩ := mem_treeEntries.1 there
  have spelled : fs.at? (st ++ r) ≠ none → Utf8.encode r.spelling = r.relativePath := tree.spelled r
  rcases own with rfl | ⟨noDir, rfl⟩
  · rcases kinds with ⟨stands, rfl⟩ | ⟨stands, named⟩
    · exact ne_append_slash (show Utf8.encode manifestName =
        manifestPlace.relativePath by decide) _ same
    · -- The file would be the manifest.
      have place : r = manifestPlace := by
        refine Path.relativePath_injective ?_
        rw [← spelled (by simp [stands]), ← named, ← same]
        decide
      rw [place] at stands
      simp [isFile_iff_read?.2 ⟨_, read?_manifest tree stands⟩] at noFile
  · rcases kinds with ⟨stands, rfl⟩ | ⟨stands, named⟩
    · have spells := Place.spells_append_slash inner (spelled (by simp [stands]))
      have place : r = manifestPlace.parent := by
        refine spells.unique ?_
        rw [← show manifestDir ++ "/" = r.spelling ++ "/" from same]
        exact spells_manifestDir
      rw [place] at stands
      simp [isDir_manifestDir tree stands] at noDir
    · refine ne_append_slash (spelled (by simp [stands])) manifestDir ?_
      rw [← named, ← same]

/-- No two entries of an archive have the same name. -/
theorem packed_entries_nodup : ((prologue fs staged ++ fs.treeEntries st).map Prod.fst).Nodup := by
  rw [List.map_append, List.nodup_append]
  refine ⟨?_, packed_nodup tree.spelled, ?_⟩
  · unfold prologue
    split
    · decide
    · split <;> decide
  · rintro _ ha _ hb
    obtain ⟨a, first, rfl⟩ := List.mem_map.1 ha
    obtain ⟨b, there, rfl⟩ := List.mem_map.1 hb
    exact prologue_ne tree first there

end Manifest

/-! ## The manifests -/

/-- What the entries hold that are named as the manifest is. -/
def manifestsIn (entries : ArchiveEntries) : List Content :=
  (entries.filter (·.1 = manifestName)).map Prod.snd

/-- Under different names, there is one entry of a name that is there. -/
theorem filter_eq_singleton {name : String} {content : Content} {entries : ArchiveEntries}
    (nodup : (entries.map Prod.fst).Nodup) (there : (name, content) ∈ entries) :
    entries.filter (·.1 = name) = [(name, content)] := by
  induction entries with
  | nil => cases there
  | cons first rest ih =>
      obtain ⟨new, others⟩ := List.nodup_cons.1 nodup
      rcases List.mem_cons.1 there with rfl | later
      · have none_ : rest.filter (·.1 = name) = [] := by
          refine List.filter_eq_nil_iff.2 fun e member named => ?_
          exact new (List.mem_map.2 ⟨e, member, by simpa using named⟩)
        rw [List.filter_cons_of_pos (by simp), none_]
      · have other : first.1 ≠ name := fun named => new (List.mem_map.2 ⟨_, later, named.symm⟩)
        rw [List.filter_cons_of_neg (by simpa using other), ih others later]

/-- A manifest of our own if none can be read, and otherwise the one of the tree, if that is a file
of the tree. -/
theorem manifestsIn_eq (tree : fs.Surveyed (Utf8.encode staged) st) :
    manifestsIn (prologue fs staged ++ fs.treeEntries st) =
      if fs.isFile (manifestPath staged) then
        match fs.at? (st ++ manifestPlace) with
        | some (.file content) => [content]
        | _ => []
      else [.plain (Utf8.encode manifestText)] := by
  have nodup := packed_entries_nodup tree
  have single : ∀ {content}, (manifestName, content) ∈ prologue fs staged ++ fs.treeEntries st →
      manifestsIn (prologue fs staged ++ fs.treeEntries st) = [content] := fun there => by
    rw [manifestsIn, filter_eq_singleton nodup there]
    rfl
  split
  · rename_i isFile
    split
    · rename_i content there
      have named : manifestName = manifestPlace.spelling := by decide
      exact single (List.mem_append_right _ (mem_treeEntries.2 ⟨manifestPlace, by decide,
        .inr ⟨there, named⟩⟩))
    · rename_i other
      -- Neither does one come first, nor is it a file of the tree.
      rw [manifestsIn, List.filter_eq_nil_iff.2, List.map_nil]
      intro e there named
      have named : e.1 = manifestName := by simpa using named
      rcases List.mem_append.1 there with first | there
      · obtain ⟨noFile, _⟩ := mem_prologue_iff.1 first
        simp [isFile] at noFile
      · obtain ⟨r, inner, ⟨stands, rfl⟩ | ⟨stands, spelled⟩⟩ := mem_treeEntries.1 there
        · exact ne_append_slash (show Utf8.encode manifestName =
            manifestPlace.relativePath by decide) _ named.symm
        · have place : r = manifestPlace := by
            refine Path.relativePath_injective ?_
            rw [← tree.spelled r (by simp [stands]), ← spelled, named]
            decide
          exact other e.2 (place ▸ stands)
  · rename_i noFile
    exact single (List.mem_append_left _ (mem_prologue_iff.2 ⟨by simpa using noFile, .inl rfl⟩))

/-- The one manifest asked for is there unless what is read under its text is no file of the
tree. -/
theorem one_manifest_iff (tree : fs.Surveyed (Utf8.encode staged) st) :
    manifestsIn (prologue fs staged ++ fs.treeEntries st) =
        [(fs.read? (manifestPath staged)).getD (.plain (Utf8.encode manifestText))] ↔
      (fs.isFile (manifestPath staged) = true → fs.isFileAt (st ++ manifestPlace) = true) := by
  rw [manifestsIn_eq tree]
  by_cases isFile : fs.isFile (manifestPath staged) = true
  · rw [if_pos isFile]
    constructor
    · intro one _
      refine isFileAt_iff.2 ?_
      split at one
      · rename_i content there
        exact ⟨content, there⟩
      · cases one
    · intro own
      obtain ⟨content, there⟩ := isFileAt_iff.1 (own isFile)
      rw [there, read?_manifest tree there]
      rfl
  · have unread : fs.read? (manifestPath staged) = none := by
      refine Option.eq_none_iff_forall_ne_some.2 fun content read => ?_
      exact isFile (isFile_iff_read?.2 ⟨content, read⟩)
    simp [isFile, unread]

/-! ## Unpacking -/

/-- Whether all entries of an archive can be unpacked: no file stands where another entry needs
a directory. -/
def Unpacks (entries : ArchiveEntries) : Prop :=
  ∀ a ∈ entries, Path.endsInSlash (Utf8.encode a.1) = false → ∀ b ∈ entries,
    ¬ Utf8.encode a.1 ++ [slash] <+: Utf8.encode b.1

theorem eq_of_prefix_manifestPlace (inner : r ≠ []) (above : r <+: manifestPlace) :
    r = manifestPlace.parent ∨ r = manifestPlace := by
  obtain ⟨n, last⟩ : ∃ n, manifestPlace = manifestPlace.parent ++ [n] := ⟨_, rfl⟩
  obtain ⟨m, only⟩ : ∃ m, manifestPlace.parent = [] ++ [m] := ⟨_, rfl⟩
  rw [last, List.prefix_concat_iff, ← last, only, List.prefix_concat_iff, ← only] at above
  rcases above with same | same | none_
  · exact .inr same
  · exact .inl same
  · exact absurd (List.prefix_nil.1 none_) inner

theorem unpacks_iff (tree : fs.Surveyed (Utf8.encode staged) st) :
    Unpacks (prologue fs staged ++ fs.treeEntries st) ↔
      (∀ content, fs.at? (st ++ manifestPlace.parent) ≠ some (.file content)) ∧
        fs.at? (st ++ manifestPlace) ≠ some .directory := by
  -- Unless a manifest can be read, one of our own comes first.
  have first : fs.isFile (manifestPath staged) = false →
      (manifestName, .plain (Utf8.encode manifestText)) ∈ prologue fs staged ++
        fs.treeEntries st := fun noFile =>
    List.mem_append_left _ (mem_prologue_iff.2 ⟨noFile, .inl rfl⟩)
  constructor
  · intro whole
    refine ⟨fun content file => ?_, fun directory => ?_⟩
    · have own : (manifestDir, content) ∈ fs.treeEntries st :=
        mem_treeEntries.2 ⟨manifestPlace.parent, by decide,
          .inr ⟨file, show manifestDir = _ by decide⟩⟩
      exact whole _ (List.mem_append_right _ own) (show Path.endsInSlash (Utf8.encode manifestDir) =
        false by decide) _ (first (isFile_manifest_eq_false tree (.inr ⟨content, file⟩)))
        (show Utf8.encode manifestDir ++ [slash] <+: Utf8.encode manifestName by decide)
    · have own : (manifestName ++ "/", .plain []) ∈ fs.treeEntries st :=
        mem_treeEntries.2 ⟨manifestPlace, by decide, .inl ⟨directory, by
          rw [show manifestPlace.spelling = manifestName by decide]⟩⟩
      exact whole _ (first (isFile_manifest_eq_false tree (.inl directory)))
        (show Path.endsInSlash (Utf8.encode manifestName) = false by decide) _
          (List.mem_append_right _ own)
        (show Utf8.encode manifestName ++ [slash] <+: Utf8.encode (manifestName ++ "/") by decide)
  · rintro ⟨noFile, noDir⟩ a ha plain b hb below
    rcases List.mem_append.1 ha with early | late
    · -- The manifest of our own, and what is named below it.
      rcases (mem_prologue_iff.1 early).2 with rfl | ⟨_, rfl⟩
      · rcases List.mem_append.1 hb with early' | late'
        · rcases (mem_prologue_iff.1 early').2 with rfl | ⟨_, rfl⟩
          · exact not_below_self _ below
          · exact absurd below (show ¬ Utf8.encode manifestName ++ [slash] <+:
              Utf8.encode (manifestDir ++ "/") by decide)
        · exact noDir (tree.directory_of_below (p := manifestPlace) (by decide)
            (show Utf8.encode manifestName = manifestPlace.relativePath by decide) late' below)
      · cases (endsInSlash_append_slash _).symm.trans plain
    · obtain ⟨r, inner, ⟨stands, rfl⟩ | ⟨stands, named⟩⟩ := mem_treeEntries.1 late
      · cases (endsInSlash_append_slash _).symm.trans plain
      · have spelled : Utf8.encode a.1 = r.relativePath := by
          rw [named, tree.spelled r (by simp [stands])]
        rcases List.mem_append.1 hb with early' | late'
        · -- A file of the tree above the manifest or its directory would stand in the
          -- directory's place.
          have above : r <+: manifestPlace ∧ r ≠ manifestPlace := by
            rcases (mem_prologue_iff.1 early').2 with rfl | ⟨_, rfl⟩
            · refine ⟨Place.prefix_of_below inner spelled spells_manifestName below, ?_⟩
              rintro rfl
              rw [spelled] at below
              exact not_below_self _ below
            · have higher := Place.prefix_of_below inner spelled spells_manifestDir below
              refine ⟨higher.trans (List.dropLast_prefix _), ?_⟩
              rintro rfl
              exact absurd higher (by decide)
          rcases eq_of_prefix_manifestPlace inner above.1 with rfl | same
          · exact noFile _ stands
          · exact above.2 same
        · have directory := tree.directory_of_below inner spelled late' below
          simp [stands] at directory

/-! ## The archive -/

/-- A staged tree with a manifest of its own, and links beside it. -/
def ownManifestGame : FileSystem :=
  ((stagedGame.plant "/st/META-INF/MANIFEST.MF" (holding "Main")).plant "/st/again"
    (linkTo "b")).plant "/st/lost" (linkTo "nowhere")

/-- A staged tree whose manifest is a link to a file beside the tree. -/
def linkedManifestGame : FileSystem :=
  (((((empty {}).plant "/m.txt" (holding "Main")).plant "/st" .directory).plant "/st/META-INF"
    .directory).plant "/st/META-INF/MANIFEST.MF" (linkTo "../../m.txt")).plant "/st/a.class"
      (holding "class")

end ClassPack
