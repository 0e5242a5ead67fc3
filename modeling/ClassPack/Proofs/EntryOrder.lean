import ClassPack.Proofs.Delivering
import ClassPack.Proofs.Entries

/-!
# EntryOrder — the entries of an archive, one after the other

* `FileSystem.below_eq` — what lies below a directory are its entries in turn, each before what
  lies below itself;
* `FileSystem.entriesBelow` — so the entries of a staged tree are told by recursion on it:
  `packed_entries`;
* `FileSystem.preamble` — what comes before them is told by what stands at two places of the tree:
  `prologue_eq`;
* `mem_entriesBelow` and `entries_nodup` — each entry is spelled by the names of a place, and no two
  are spelled the same;
* `archive_follows_tree` — the archive that the library makes itself holds exactly these entries in
  this order. What can stand in its way: `archive_refused`.
-/

namespace ClassPack

open FileSystem

variable {fs gs : FileSystem} {st p q r : Place} {text : Path} {staged archive : String}
  {w w₁ : Workshop}

/-! ## Below a directory -/

namespace FileSystem

/-- The same lies below two directories if the same stands at every place below. -/
theorem below_congr {p : Place} (same : ∀ r, gs.at? (p ++ r) = fs.at? (p ++ r)) :
    gs.below p = fs.below p := by
  refine eq_of_mem_iff_of_sorted (gs.below_sorted p) (fs.below_sorted p) ?_
  rintro ⟨r, e⟩
  rw [mem_below, mem_below, same]

/-- An entry of a directory with all that lies below it, as seen from the directory. -/
def branchBelow (fs : FileSystem) (p : Place) (n : Name) (e : Entry) : List (Place × Entry) :=
  ([n], e) :: (fs.below (p ++ [n])).map fun (r, f) => (n :: r, f)

theorem mem_branchBelow {n : Name} {e f : Entry} :
    (r, f) ∈ fs.branchBelow p n e ↔
      r = [n] ∧ f = e ∨ ∃ s, s ≠ [] ∧ r = n :: s ∧ fs.at? (p ++ [n] ++ s) = some f := by
  simp only [branchBelow, List.mem_cons, List.mem_map, Prod.mk.injEq, Prod.exists, mem_below]
  constructor
  · rintro (here | ⟨s, g, ⟨inner, there⟩, rfl, rfl⟩)
    · exact .inl here
    · exact .inr ⟨s, inner, rfl, there⟩
  · rintro (here | ⟨s, inner, rfl, there⟩)
    · exact .inl here
    · exact .inr ⟨s, f, ⟨inner, there⟩, rfl, rfl⟩

/-- An entry comes before what lies below it, and that keeps its order. -/
theorem branchBelow_sorted (fs : FileSystem) (p : Place) (n : Name) (e : Entry) :
    (fs.branchBelow p n e).Pairwise fun a b => compare a.1 b.1 = .lt := by
  refine List.pairwise_cons.2 ⟨?_, ?_⟩
  · intro x there
    obtain ⟨⟨r, f⟩, lower, rfl⟩ := List.mem_map.1 there
    obtain ⟨m, s, rfl⟩ := List.exists_cons_of_ne_nil (mem_below.1 lower).1
    simp [List.compare_cons_cons, Std.ReflCmp.compare_self]
  · refine List.pairwise_map.2 ((fs.below_sorted (p ++ [n])).imp ?_)
    intro a b before
    simpa [List.compare_cons_cons, Std.ReflCmp.compare_self] using before

theorem exists_cons_of_mem_branchBelow {n : Name} {e : Entry} {x : Place × Entry}
    (there : x ∈ fs.branchBelow p n e) : ∃ r, x.1 = n :: r := by
  rcases mem_branchBelow.1 there with ⟨here, _⟩ | ⟨s, _, here, _⟩
  · exact ⟨[], here⟩
  · exact ⟨s, here⟩

/-- What lies below a directory are its entries, each before what lies below itself. -/
theorem below_eq (fs : FileSystem) (p : Place) :
    fs.below p = (fs.children p).flatMap fun (n, e) => fs.branchBelow p n e := by
  refine eq_of_mem_iff_of_sorted (fs.below_sorted p) (List.pairwise_flatMap.2 ⟨?_, ?_⟩) ?_
  · rintro ⟨n, e⟩ _
    exact fs.branchBelow_sorted p n e
  · -- All that stands under one name comes before all that stands under a later one.
    refine (fs.children_sorted p).imp ?_
    rintro ⟨n, e⟩ ⟨m, f⟩ before x hx y hy
    obtain ⟨r, hr⟩ := exists_cons_of_mem_branchBelow hx
    obtain ⟨s, hs⟩ := exists_cons_of_mem_branchBelow hy
    have before : compare n m = .lt := before
    simp [hr, hs, List.compare_cons_cons, before]
  · rintro ⟨r, e⟩
    simp only [mem_below, List.mem_flatMap, Prod.exists, mem_children, mem_branchBelow]
    constructor
    · rintro ⟨inner, there⟩
      obtain ⟨n, s, rfl⟩ := List.exists_cons_of_ne_nil inner
      cases s with
      | nil => exact ⟨n, e, there, .inl ⟨rfl, rfl⟩⟩
      | cons m s =>
          have stands : fs.at? (p ++ [n]) = some .directory := by
            by_contra other
            have missing : fs.at? (p ++ n :: m :: s) = none := by
              simpa using at?_below_eq_none other m s
            simp [missing] at there
          exact ⟨n, .directory, stands, .inr ⟨m :: s, by simp, rfl, by simpa using there⟩⟩
    · rintro ⟨n, f, stands, ⟨rfl, rfl⟩ | ⟨s, _, rfl, there⟩⟩
      · exact ⟨by simp, stands⟩
      · exact ⟨by simp, by simpa using there⟩

/-- The entries for what lies below a place: those of a directory in the order of their names'
bytes, each directory directly before what it holds. `above` is what the names start with. Links
have no entries. -/
def entriesBelow (fs : FileSystem) (p : Place) (above : String) : ArchiveEntries :=
  (fs.children p).attach.flatMap fun ⟨(n, e), _⟩ =>
    let name := above ++ n.text?.getD ""
    match e with
    | .directory => (name ++ "/", .plain []) :: fs.entriesBelow (p ++ [n]) (name ++ "/")
    | .file content => [(name, content)]
    | .link _ => []
termination_by fs.depth + 1 - p.length
decreasing_by
  rename_i there
  have deep : (p ++ [n]).length ≤ fs.depth := length_le_depth (by simp [mem_children.1 there])
  simp only [List.length_append, List.length_singleton] at deep ⊢
  omega

theorem entriesBelow_eq (fs : FileSystem) (p : Place) (above : String) :
    fs.entriesBelow p above = (fs.children p).flatMap fun (n, e) =>
      match e with
      | .directory => (above ++ n.text?.getD "" ++ "/", .plain []) ::
          fs.entriesBelow (p ++ [n]) (above ++ n.text?.getD "" ++ "/")
      | .file content => [(above ++ n.text?.getD "", content)]
      | .link _ => [] := by
  rw [entriesBelow]
  conv_rhs => rw [← List.attach_map_subtype_val (fs.children p), List.flatMap_map]
  refine List.flatMap_congr ?_
  rintro ⟨⟨n, e⟩, _⟩ _
  cases e <;> rfl

end FileSystem

/-! ## Names -/

/-- The text that the names of a place make, if they make one. -/
def Place.spelling (r : Place) : String := (Utf8.decode? r.relativePath).getD ""

theorem Place.spelling_eq {name : String} (spelled : Utf8.encode name = r.relativePath) :
    r.spelling = name := by
  rw [spelling, ← spelled, Utf8.decode?_encode, Option.getD_some]

theorem Place.encode_spelling (texts : ∀ n ∈ r, n.text?.isSome = true) :
    Utf8.encode r.spelling = r.relativePath := by
  obtain ⟨name, spelled⟩ := exists_encode_eq texts
  rw [spelling_eq spelled, spelled]

/-- One more name is written behind those before it, each with its slash. -/
theorem Place.relativePath_concat (q : Place) (n : Name) :
    (q ++ [n]).relativePath = (q.flatMap fun m => m.bytes ++ [slash]) ++ n.bytes := by
  induction q with
  | nil => rfl
  | cons m more ih =>
      rw [List.cons_append, relativePath_cons (by simp), ih]
      simp

/-- What stands at a place below a staged directory becomes in an archive. -/
def Entry.packed (r : Place) : Entry → ArchiveEntries
  | .directory => [(r.spelling ++ "/", .plain [])]
  | .file content => [(r.spelling, content)]
  | .link _ => []

namespace FileSystem

/-- Below an entry that is no directory there is nothing. -/
theorem below_of_not_directory (other : fs.at? p ≠ some .directory) : fs.below p = [] := by
  refine List.eq_nil_iff_forall_not_mem.2 ?_
  rintro ⟨r, e⟩ there
  obtain ⟨inner, stands⟩ := mem_below.1 there
  obtain ⟨n, s, rfl⟩ := List.exists_cons_of_ne_nil inner
  simp [at?_below_eq_none other n s] at stands

/-- The entries of all that lies below a place, one after the other, are those told by recursion.
`q` is the place as seen from the staged directory, and `above` is how it is written. -/
theorem flatMap_below (texts : ∀ r : Place, fs.at? (p ++ r) ≠ none → ∀ n ∈ r, n.text?.isSome = true)
    (q : Place) {above : String} (written : Utf8.encode above =
      q.flatMap fun m => m.bytes ++ [slash]) :
    ((fs.below p).flatMap fun (r, e) => e.packed (q ++ r)) = fs.entriesBelow p above := by
  induction depth : fs.depth + 1 - p.length using
      Nat.strong_induction_on generalizing p q above with
  | _ depth ih =>
      rw [below_eq, entriesBelow_eq, List.flatMap_assoc]
      refine List.flatMap_congr ?_
      rintro ⟨n, e⟩ there
      have stands : fs.at? (p ++ [n]) = some e := mem_children.1 there
      have spelled : Utf8.encode (n.text?.getD "") = n.bytes := by
        obtain ⟨name, decoded⟩ :=
          Option.isSome_iff_exists.1 (texts [n] (by simp [stands]) n (by simp))
        rw [decoded, Option.getD_some]
        exact Utf8.encode_of_decode? decoded
      have name : (q ++ [n]).spelling = above ++ n.text?.getD "" :=
        Place.spelling_eq (by rw [Utf8.encode_append, written, spelled, Place.relativePath_concat])
      simp only [branchBelow, List.flatMap_cons, List.flatMap_map]
      cases e with
      | directory =>
          have deep : (p ++ [n]).length ≤ fs.depth := length_le_depth (by simp [stands])
          have onward := ih (fs.depth + 1 - (p ++ [n]).length)
            (by simp only [List.length_append, List.length_singleton] at deep ⊢; omega)
            (fun r more m member => texts (n :: r) (by simpa using more) m
              (List.mem_cons_of_mem _ member))
            (q ++ [n])
            (show Utf8.encode (above ++ n.text?.getD "" ++ "/") = _ by
              simp [written, spelled, show Utf8.encode "/" = [slash] by decide]) rfl
          have own : Entry.packed (q ++ [n]) .directory =
              [(above ++ n.text?.getD "" ++ "/", .plain [])] := by
            rw [Entry.packed, name]
          simp only [List.append_assoc, List.singleton_append] at onward
          simp [own, onward]
      | file content =>
          rw [below_of_not_directory (by simp [stands])]
          simp [Entry.packed, name]
      | link target =>
          rw [below_of_not_directory (by simp [stands])]
          simp [Entry.packed]

/-! ## Staged trees -/

theorem isFile_iff :
    fs.isFile text = true ↔ ∃ p content, fs.Arrives text p ∧ fs.at? p = some (.file content) := by
  unfold isFile
  constructor
  · intro h
    split at h
    · rename_i standing content found
      obtain ⟨way, there⟩ := lookup_eq_ok_iff.1 found
      exact ⟨standing.place, content, ⟨standing.links, way⟩, there⟩
    · simp at h
  · rintro ⟨p, content, ⟨links, way⟩, there⟩
    rw [lookup_eq_ok_iff.2 ⟨way, there⟩]

/-- Down a way without links, the text of an entry leads to it. -/
theorem Arrives.join_place (arrives : fs.Arrives text st) (inner : r ≠ [])
    (fit : fs.vet (text.join r.relativePath) = .ok ())
    (plain : ∀ r', r' <+: r → ∀ target, fs.at? (st ++ r') ≠ some (.link target))
    (there : fs.at? (st ++ r) ≠ none) : fs.Arrives (text.join r.relativePath) (st ++ r) := by
  have inward := Path.inward_relativePath inner
  obtain ⟨links, way⟩ := arrives
  obtain ⟨m, front, stay⟩ := follow_prefix (resolve_eq_ok_iff.1 way).2
  obtain rfl : st = m.place := congrArg Standing.place (follow_slash_ok stay)
  refine ⟨m.links, resolve_eq_ok_iff.2 ⟨fit, ?_⟩⟩
  rw [Path.steps, Path.endsInSlash_join inward.relative inward.ne_nil,
    Path.endsInSlash_relativePath, Path.segments_join inward.relative, Path.segments_relativePath,
    Path.origin_join inward.relative, if_neg (by simp), List.append_nil, follow_append, front]
  exact follow_of_plain m.links plain there

/-- It leads nowhere else. -/
theorem Arrives.eq_of_join_place (arrives : fs.Arrives text st)
    (plain : ∀ r', r' <+: r → ∀ target, fs.at? (st ++ r') ≠ some (.link target))
    (h : fs.Arrives (text.join r.relativePath) p) : p = st ++ r := by
  have down : fs.Leads st (r.map .name) (st ++ r) := by
    simpa using Leads.of_plain_way (s := r.map .name) (by simpa using plain) (by simp)
  refine h.leads.unique ?_
  rw [LeadsTo, Path.origin_join (Path.isAbsolute_relativePath r),
    Path.segments_join (Path.isAbsolute_relativePath r), Path.segments_relativePath]
  exact arrives.leads.append down

/-- A tree of directories and files that can be packed: all are named by texts, no path to one of
them is too long, and an entry takes each of the files. -/
structure Packable (fs : FileSystem) (text : Path) (st : Place) : Prop where
  starts : fs.Starts text
  arrives : fs.Arrives text st
  directory : fs.at? st = some .directory
  plain : ∀ r target, fs.at? (st ++ r) ≠ some (.link target)
  texts : ∀ r : Place, fs.at? (st ++ r) ≠ none → ∀ n ∈ r, n.text?.isSome = true
  short : ∀ r : Place, r ≠ [] → fs.at? (st ++ r) ≠ none →
    exceeds (text.join r.relativePath).length fs.limits.path = false
  sizes : ∀ r content, fs.at? (st ++ r) = some (.file content) → fs.limits.fitsEntry content = true

namespace Packable

/-- Whether a tree can be packed is seen by a look at all that lies below it. -/
theorem of_below (starts : fs.Starts text) (arrives : fs.Arrives text st)
    (directory : fs.at? st = some .directory) (plain : ∀ q ∈ fs.links, ¬ st <+: q)
    (texts : ∀ x ∈ fs.below st, ∀ n ∈ x.1, n.text?.isSome = true)
    (short : ∀ x ∈ fs.below st, exceeds (text.join x.1.relativePath).length fs.limits.path = false)
    (sizes : ∀ x ∈ fs.below st, x.2.fitsArchive fs.limits = true) : fs.Packable text st := by
  have member : ∀ {r : Place}, r ≠ [] → fs.at? (st ++ r) ≠ none →
      ∃ e, (r, e) ∈ fs.below st := fun inner there => by
    obtain ⟨e, stands⟩ := Option.ne_none_iff_exists'.1 there
    exact ⟨e, mem_below.2 ⟨inner, stands⟩⟩
  refine ⟨starts, arrives, directory, fun r target isLink => plain _ (mem_links isLink)
    (List.prefix_append ..), fun r there n inside => ?_, fun r inner there =>
      ?_, fun r content file => ?_⟩
  · obtain ⟨e, lower⟩ := member (List.ne_nil_of_mem inside) there
    exact texts _ lower n inside
  · obtain ⟨e, lower⟩ := member inner there
    exact short _ lower
  · have inner : r ≠ [] := by
      rintro rfl
      simp [directory] at file
    exact sizes _ (mem_below.2 ⟨inner, file⟩)

variable (tree : fs.Packable text st)

include tree

theorem vet (inner : r ≠ []) (there : fs.at? (st ++ r) ≠ none) :
    fs.vet (text.join r.relativePath) = .ok () := by
  obtain ⟨links, way⟩ := tree.arrives
  have inward := Path.inward_relativePath inner
  have noZero :=
    Path.zero_not_mem_join (zero_not_mem_of_vet (resolve_eq_ok_iff.1 way).1) inward.noZero
  simp [FileSystem.vet, noZero, Path.join_ne_nil text inward.ne_nil, tree.short r inner there]

theorem encode_spelling (there : fs.at? (st ++ r) ≠ none) :
    Utf8.encode r.spelling = r.relativePath :=
  Place.encode_spelling (tree.texts r there)

/-- The text of an entry of the tree leads to it. -/
theorem arrives_join (inner : r ≠ []) (there : fs.at? (st ++ r) ≠ none) :
    fs.Arrives (text.join r.relativePath) (st ++ r) :=
  tree.arrives.join_place inner (tree.vet inner there) (fun r _ => tree.plain r) there

theorem place_of_arrives (h : fs.Arrives (text.join r.relativePath) p) : p = st ++ r :=
  tree.arrives.eq_of_join_place (fun r _ => tree.plain r) h

theorem isDir_join_iff (inner : r ≠ []) :
    fs.isDir (text.join r.relativePath) = true ↔ fs.at? (st ++ r) = some .directory := by
  rw [isDir_iff]
  constructor
  · rintro ⟨p, arrive, there⟩
    rwa [← tree.place_of_arrives arrive]
  · intro there
    exact ⟨_, tree.arrives_join inner (by simp [there]), there⟩

theorem isFile_join_iff (inner : r ≠ []) :
    fs.isFile (text.join r.relativePath) = true ↔
    ∃ content, fs.at? (st ++ r) = some (.file content) := by
  rw [isFile_iff]
  constructor
  · rintro ⟨p, content, arrive, there⟩
    exact ⟨content, by rwa [← tree.place_of_arrives arrive]⟩
  · rintro ⟨content, there⟩
    exact ⟨_, content, tree.arrives_join inner (by simp [there]), there⟩

/-- A file written elsewhere leaves the tree as it is. -/
theorem of_wrote {t : Place} {content : Content} (grown : fs.Grows gs)
    (wrote : Wrote t content fs gs) (outside : ¬ st <+: t) : gs.Packable text st ∧
    ∀ r, gs.at? (st ++ r) = fs.at? (st ++ r) := by
  have same : ∀ r, gs.at? (st ++ r) = fs.at? (st ++ r) := fun r => by
    rw [wrote.at?, if_neg]
    rintro rfl
    exact outside (List.prefix_append ..)
  refine ⟨⟨tree.starts.of_within grown.toWithin, tree.arrives.of_within grown.toWithin tree.starts,
    grown.directory tree.directory, fun r target => ?_, fun r => ?_, fun r =>
      ?_, fun r => ?_⟩, same⟩
  · rw [same]
    exact tree.plain r target
  · rw [same]
    exact tree.texts r
  · rw [same, grown.limits]
    exact tree.short r
  · rw [same, grown.limits]
    exact tree.sizes r

end Packable
end FileSystem

/-- All that lies below the staged directory, one after the other, makes the entries of the tree. -/
theorem entriesBelow_root (tree : fs.Packable text st) :
    fs.entriesBelow st "" = (fs.below st).flatMap fun (r, e) => e.packed r := by
  simpa using (flatMap_below tree.texts [] (show Utf8.encode "" = _ from rfl)).symm

/-- A listing in which nothing stands in the way becomes the entries of its items in turn. -/
theorem packListing_entries {l : List Listed} (fine : ∀ item ∈ l, item.Fits fs) :
    (packListing fs staged (l.map .ok)).entries = l.flatMap fun item =>
      item.entry.packed item.names := by
  induction l with
  | nil => rfl
  | cons item rest ih =>
      obtain ⟨⟨⟨name, spelled⟩, fit, size⟩, others⟩ := List.forall_mem_cons.1 fine
      rw [List.map_cons, List.flatMap_cons, ← ih others, packListing, ← spelled,
        Utf8.decode?_encode]
      cases entry : item.entry with
      | directory => simp [Entry.packed, Place.spelling_eq spelled]
      | file content =>
          simp [Entry.packed, Place.spelling_eq spelled, fit content entry, size content entry]
      | link target => simp [Entry.packed]

/-- A tree that can be packed is, and its entries are those told by recursion. -/
theorem packed_entries (tree : fs.Packable (Utf8.encode staged) st) :
    (packListing fs staged (fs.listing (Utf8.encode staged))).fault = none ∧
      (packListing fs staged (fs.listing (Utf8.encode staged))).entries =
        fs.entriesBelow st "" := by
  have fine : ∀ item ∈ (fs.below st).map fun (r, e) =>
      (⟨r, Path.join (Utf8.encode staged) r.relativePath, e⟩ : Listed), item.Fits fs := by
    intro item there
    obtain ⟨⟨r, e⟩, lower, rfl⟩ := List.mem_map.1 there
    obtain ⟨inner, stands⟩ := mem_below.1 lower
    refine ⟨Place.exists_encode_eq (tree.texts r (by simp [stands])), fun _ _ => tree.vet inner
      (by simp [stands]), fun content file => tree.sizes r content ?_⟩
    rw [stands, show e = .file content from file]
  rw [listing_eq tree.arrives tree.directory fun r => tree.vet]
  refine ⟨packListing_of_fits fine, ?_⟩
  rw [packListing_entries fine, List.flatMap_map, entriesBelow_root tree]

/-! ## What comes first -/

/-- Where the manifest stands in a staged tree, as seen from there. -/
def manifestPlace : Place :=
  [⟨Utf8.encode "META-INF", by decide⟩, ⟨Utf8.encode "MANIFEST.MF", by decide⟩]

/-- What comes before the entries of a tree: nothing if the manifest is one of its files, and else
the manifest of our own, with its directory unless the tree has that. -/
def FileSystem.preamble (fs : FileSystem) (st : Place) : ArchiveEntries :=
  match fs.at? (st ++ manifestPlace), fs.at? (st ++ manifestPlace.parent) with
  | some (.file _), _ => []
  | _, some .directory => [(manifestName, .plain (Utf8.encode manifestText))]
  | _, _ => [(manifestDir ++ "/", .plain []), (manifestName, .plain (Utf8.encode manifestText))]

theorem prologue_eq (tree : fs.Packable (Utf8.encode staged) st) :
    prologue fs staged = fs.preamble st := by
  have file := tree.isFile_join_iff (r := manifestPlace) (by decide)
  have dir := tree.isDir_join_iff (r := manifestPlace.parent) (by decide)
  rw [show manifestPlace.relativePath = Utf8.encode manifestName by decide,
    ← encode_joinText] at file
  rw [show manifestPlace.parent.relativePath = Utf8.encode manifestDir by decide,
    ← encode_joinText] at dir
  unfold prologue preamble
  split
  · rename_i there
    obtain ⟨content, stands⟩ := file.1 there
    rw [stands]
  · rename_i noFile
    split
    · rename_i there
      rw [dir.1 there]
      split
      · rename_i content stands
        exact absurd (file.2 ⟨content, stands⟩) noFile
      · rfl
      · rename_i other
        exact (other rfl).elim
    · rename_i noDir
      split
      · rename_i content stands
        exact absurd (file.2 ⟨content, stands⟩) noFile
      · rename_i stands _
        exact absurd (dir.2 stands) noDir
      · rfl

/-! ## Names of entries -/

/-- Split at its slashes, a name consists of the names of a place, with nothing after the last slash
if it ends in one. -/
def Place.Spells (r : Place) (name : String) : Prop :=
  Path.pieces (Utf8.encode name) = r.map Name.bytes ∨
  Path.pieces (Utf8.encode name) = r.map Name.bytes ++ [[]]

theorem Place.Spells.unique {name : String} (h : p.Spells name) (h' : q.Spells name) : p = q := by
  have bytes : ∀ {p q : Place}, p.map Name.bytes = q.map Name.bytes → p = q := fun same =>
    List.map_injective_iff.2 (fun m n same => by
      cases m
      cases n
      simp_all) same
  -- No name is empty.
  have some_ : ∀ {p q : Place}, p.map Name.bytes ≠ q.map Name.bytes ++ [[]] := fun {p q} same => by
    have last : [] ∈ p.map Name.bytes := same ▸ List.mem_append_right _ (List.mem_singleton_self _)
    obtain ⟨n, _, empty⟩ := List.mem_map.1 last
    exact n.valid.1 empty
  rcases h with h | h <;> rcases h' with h' | h' <;> rw [h] at h'
  · exact bytes h'
  · exact absurd h' some_
  · exact absurd h'.symm some_
  · exact bytes (List.append_cancel_right h')

theorem Place.spells_of_encode {name : String} (inner : r ≠ [])
    (spelled : Utf8.encode name = r.relativePath) : r.Spells name := by
  obtain ⟨n, more, rfl⟩ := List.exists_cons_of_ne_nil inner
  exact .inl (by rw [spelled, Path.pieces_relativePath])

theorem Place.spells_append_slash {name : String} (inner : r ≠ [])
    (spelled : Utf8.encode name = r.relativePath) : r.Spells (name ++ "/") := by
  obtain ⟨n, more, rfl⟩ := List.exists_cons_of_ne_nil inner
  refine .inr ?_
  rw [Utf8.encode_append, show Utf8.encode "/" = [slash] by decide, spelled,
    Path.pieces_append_slash, Path.pieces_relativePath]
  rfl

/-- What stands at a place is spelled by the place, and only a directory with a slash at the end. -/
theorem Entry.spells_of_mem_packed {e : Entry} {a : String × Content}
    (spelled : Utf8.encode r.spelling = r.relativePath) (inner : r ≠ []) (there : a ∈ e.packed r) :
    r.Spells a.1 ∧ (e = .directory ∧ a = (r.spelling ++ "/", .plain []) ∨ e = .file a.2 ∧
      a.1 = r.spelling) := by
  cases e with
  | directory =>
      obtain rfl : a = _ := List.mem_singleton.1 there
      exact ⟨Place.spells_append_slash inner spelled, .inl ⟨rfl, rfl⟩⟩
  | file content =>
      obtain rfl : a = _ := List.mem_singleton.1 there
      exact ⟨Place.spells_of_encode inner spelled, .inr ⟨rfl, rfl⟩⟩
  | link target => cases there

/-- Every entry of a tree is spelled by a place of the tree. -/
theorem mem_entriesBelow (tree : fs.Packable text st) {a : String × Content}
    (there : a ∈ fs.entriesBelow st "") : ∃ r : Place, r ≠ [] ∧ r.Spells a.1 ∧
      (fs.at? (st ++ r) = some .directory ∧ a = (r.spelling ++ "/", .plain []) ∨
        fs.at? (st ++ r) = some (.file a.2) ∧ a.1 = r.spelling) := by
  rw [entriesBelow_root tree] at there
  obtain ⟨⟨r, e⟩, lower, packed⟩ := List.mem_flatMap.1 there
  obtain ⟨inner, stands⟩ := mem_below.1 lower
  obtain ⟨spells, kinds⟩ :=
    Entry.spells_of_mem_packed (tree.encode_spelling (by simp [stands])) inner packed
  refine ⟨r, inner, spells, ?_⟩
  rw [stands]
  simpa using kinds

/-- No two entries have the same name, as long as each has the text of its place. -/
theorem packed_nodup
    (spelled : ∀ r : Place, fs.at? (st ++ r) ≠ none → Utf8.encode r.spelling = r.relativePath) :
    (((fs.below st).flatMap fun (r, e) => e.packed r).map Prod.fst).Nodup := by
  rw [List.Nodup, List.pairwise_map, List.pairwise_flatMap]
  constructor
  · rintro ⟨r, e⟩ _
    cases e <;> simp [Entry.packed]
  · refine (fs.below_sorted st).imp_of_mem ?_
    rintro ⟨r, e⟩ ⟨r', e'⟩ lower lower' before a ha b hb same
    obtain ⟨inner, stands⟩ := mem_below.1 lower
    obtain ⟨inner', stands'⟩ := mem_below.1 lower'
    have spells := (Entry.spells_of_mem_packed (spelled r (by simp [stands])) inner ha).1
    have spells' := (Entry.spells_of_mem_packed (spelled r' (by simp [stands'])) inner' hb).1
    -- A name spells one place only, and the two places differ.
    rw [same] at spells
    simp [spells.unique spells', Std.ReflCmp.compare_self] at before

theorem entriesBelow_nodup (tree : fs.Packable text st) :
    ((fs.entriesBelow st "").map Prod.fst).Nodup := by
  rw [entriesBelow_root tree]
  exact packed_nodup fun r there => tree.encode_spelling there

theorem spells_manifestName : manifestPlace.Spells manifestName :=
  Place.spells_of_encode (by decide) (by decide)

theorem spells_manifestDir : manifestPlace.parent.Spells (manifestDir ++ "/") :=
  Place.spells_append_slash (by decide) (by decide)

/-- What comes first has a name that no entry of the tree has. -/
theorem preamble_ne (tree : fs.Packable text st) {a b : String × Content}
    (first : a ∈ fs.preamble st) (there : b ∈ fs.entriesBelow st "") : a.1 ≠ b.1 := by
  intro same
  obtain ⟨r, inner, spells, kinds⟩ := mem_entriesBelow tree there
  rw [← same] at spells
  -- The manifest is no file of the tree, and its directory is no directory of the tree.
  have manifest : (∀ content, fs.at? (st ++ manifestPlace) ≠ some (.file content)) →
      a.1 ≠ manifestName := by
    intro noFile name
    rw [name] at spells same
    obtain rfl := spells.unique spells_manifestName
    rcases kinds with ⟨_, slashed⟩ | ⟨file, _⟩
    · exact ne_append_slash (show Utf8.encode manifestName = manifestPlace.relativePath by decide) _
        (same.trans (congrArg Prod.fst slashed))
    · exact noFile _ file
  have dir : fs.at? (st ++ manifestPlace.parent) ≠ some .directory → a.1 ≠ manifestDir ++ "/" := by
    intro noDir name
    rw [name] at spells same
    obtain rfl := spells.unique spells_manifestDir
    rcases kinds with ⟨directory, _⟩ | ⟨file, plain⟩
    · exact noDir directory
    · exact ne_append_slash (tree.encode_spelling (by simp [file])) _ (same.trans plain).symm
  unfold preamble at first
  split at first
  · cases first
  · rename_i noFile
    exact manifest noFile (congrArg Prod.fst (List.mem_singleton.1 first))
  · rename_i noDir noFile
    rcases List.mem_cons.1 first with here | later
    · exact dir noFile (congrArg Prod.fst here)
    · exact manifest noDir (congrArg Prod.fst (List.mem_singleton.1 later))

theorem spells_of_mem_preamble {a : String × Content} (first : a ∈ fs.preamble st) :
    ∃ r : Place, r ≠ [] ∧ r.Spells a.1 := by
  unfold preamble at first
  split at first
  · cases first
  · rw [List.mem_singleton.1 first]
    exact ⟨_, by decide, spells_manifestName⟩
  · rcases List.mem_cons.1 first with rfl | later
    · exact ⟨_, by decide, spells_manifestDir⟩
    · rw [List.mem_singleton.1 later]
      exact ⟨_, by decide, spells_manifestName⟩

theorem entries_nodup (tree : fs.Packable text st) :
    ((fs.preamble st ++ fs.entriesBelow st "").map Prod.fst).Nodup := by
  rw [List.map_append, List.nodup_append]
  refine ⟨?_, entriesBelow_nodup tree, ?_⟩
  · unfold preamble
    split <;> decide
  · rintro _ ha _ hb
    obtain ⟨a, first, rfl⟩ := List.mem_map.1 ha
    obtain ⟨b, there, rfl⟩ := List.mem_map.1 hb
    exact preamble_ne tree first there

/-- There is always an entry: the manifest is one of the tree's files, or comes first. -/
theorem entries_ne_nil (tree : fs.Packable text st) :
    fs.preamble st ++ fs.entriesBelow st "" ≠ [] := by
  unfold preamble
  split
  · rename_i _ _ content file
    rw [entriesBelow_root tree, List.nil_append]
    have lower : (manifestPlace, Entry.file content) ∈ fs.below st := mem_below.2 ⟨by decide, file⟩
    have own : (manifestPlace.spelling, content) ∈ (Entry.file content).packed manifestPlace :=
      List.mem_singleton_self _
    exact List.ne_nil_of_mem (List.mem_flatMap.2 ⟨_, lower, own⟩)
  · simp
  · simp

/-! ## The archive -/

/-- A tree without links whose names are texts and whose files are not too large, beside an archive
that can be written, is packed; there are no permissions here that could be missing. The archive
holds the manifest, unless the tree has one, and then what lies below the staged directory: of each
directory the entries in the order of their names' bytes, each directory directly before what it
holds. No two entries have the same name, each name is spelled by the names of a place, and what the
tree gives is named by where it stands below the staged directory. -/
theorem archive_follows_tree {dir : Place} {n : Name} (dirs : makeArchiveDirs archive w = .ok () w₁)
    (site : w₁.files.writingSite (Utf8.encode archive) = .ok (dir, n))
    (tree : w₁.files.Packable (Utf8.encode staged) st) (outside : ¬ st <+: dir ++ [n]) :
    let first := w₁.files.preamble st
    let below := w₁.files.entriesBelow st ""
    (∃ w', zipArchiver.pack staged archive w = .ok () w' ∧
      w'.files.at? (dir ++ [n]) = some (.file (.archive (first ++ below)))) ∧
    ((first ++ below).map Prod.fst).Nodup ∧
    (∀ e ∈ first ++ below, ∃ r : Place, r ≠ [] ∧ r.Spells e.1) ∧
    ∀ e ∈ below, ∃ r : Place, r ≠ [] ∧ r.Spells e.1 ∧ w₁.files.at? (st ++ r) ≠ none := by
  intro first below
  have named : ∀ e ∈ below, ∃ r : Place, r ≠ [] ∧ r.Spells e.1 ∧ w₁.files.at? (st ++ r) ≠ none := by
    intro e there
    obtain ⟨r, inner, spells, ⟨stands, _⟩ | ⟨stands, _⟩⟩ := mem_entriesBelow tree there <;>
      exact ⟨r, inner, spells, by simp [stands]⟩
  refine ⟨?_, entries_nodup tree, fun e there => ?_, named⟩
  · -- The archive, open and empty, is no part of the tree.
    obtain ⟨opened, opening⟩ := openForWriting_of_site site
    obtain ⟨writes, wrote, _⟩ := openForWriting_ok opening
    obtain ⟨tree', same⟩ := tree.of_wrote (wrote.grows writes.free) wrote outside
    obtain ⟨fine, entries⟩ := packed_entries tree'
    have prologue : prologue opened staged = first := by
      rw [prologue_eq tree', preamble, same, same]
      rfl
    have entries : (packListing opened staged (opened.listing (Utf8.encode staged))).entries =
        below := by
      rw [entries, entriesBelow_root tree', below_congr same]
      exact (entriesBelow_root tree).symm
    obtain ⟨written, done⟩ := zipArchiver_of_open staged dirs opening
    obtain ⟨w', packed⟩ := done.2 fine
    rw [packed, prologue, entries] at written
    refine ⟨w', packed, ?_⟩
    have content : Content.ofEntries (first ++ below) = .archive (first ++ below) :=
      if_neg fun none_ => entries_ne_nil tree (List.isEmpty_iff.1 none_)
    rw [← content]
    exact (written.at? _).trans (if_pos rfl)
  · rcases List.mem_append.1 there with before | later
    · exact spells_of_mem_preamble before
    · obtain ⟨r, inner, spells, _⟩ := named e later
      exact ⟨r, inner, spells⟩

/-- A staged tree with a file that no entry takes is not packed. -/
theorem zipArchiver_of_large {dir : Place} {n : Name} {content : Content}
    (dirs : makeArchiveDirs archive w = .ok () w₁)
    (site : w₁.files.writingSite (Utf8.encode archive) = .ok (dir, n))
    (starts : w₁.files.Starts (Utf8.encode staged))
    (arrives : w₁.files.Arrives (Utf8.encode staged) st)
    (directory : w₁.files.at? st = some .directory) (outside : ¬ st <+: dir ++ [n])
    (file : w₁.files.at? (st ++ r) = some (.file content))
    (large : w₁.files.limits.fitsEntry content = false) :
    ∀ w', zipArchiver.pack staged archive w ≠ .ok () w' := by
  intro w' packed
  obtain ⟨opened, opening⟩ := openForWriting_of_site site
  obtain ⟨writes, wrote, _⟩ := openForWriting_ok opening
  have grown := wrote.grows writes.free
  have same : opened.at? (st ++ r) = some (.file content) := by
    rw [wrote.at?, if_neg, file]
    intro here
    exact outside (here ▸ List.prefix_append st r)
  -- To be packed, the file would have to fit.
  have fits := fitsEntry_of_packListing (arrives.of_within grown.toWithin starts)
    (grown.directory directory) ((zipArchiver_of_open staged dirs opening).2.1 ⟨w', packed⟩) same
  rw [grown.limits, large] at fits
  cases fits

/-- A staged tree with a directory for the manifest, and a file whose name goes on where the name of
a directory ends. -/
def stagedGame : FileSystem :=
  (((((empty {}).plant "/st" .directory).plant "/st/META-INF" .directory).plant "/st/b"
    .directory).plant "/st/b.lua" (holding "lua")).plant "/st/b/c.class" (holding "class")

theorem stagedGame_packable :
    stagedGame.Packable (Utf8.encode "/st") (Path.spelled (Utf8.encode "/st")) :=
  .of_below (starts_of_absolute (by decide)) ⟨40, by decide⟩
    (isDirectoryAt_iff.1 (by decide)) (by decide) (by decide)
    (by decide) (by decide)

theorem archive_follows_tree_staged :
    ∃ w', zipArchiver.pack "/st" "/out.jar" { files := stagedGame } = .ok () w' ∧
      w'.files.at? (Path.spelled (Utf8.encode "/out.jar")) = some (.file (.archive
        [("META-INF/MANIFEST.MF", .plain (Utf8.encode manifestText)), ("META-INF/", .plain []),
         ("b/", .plain []), ("b/c.class", .plain (Utf8.encode "class")),
         ("b.lua", .plain (Utf8.encode "lua"))])) := by
  have dirs : makeArchiveDirs "/out.jar" { files := stagedGame } =
    .ok () { files := stagedGame } := by rfl
  have site : stagedGame.writingSite (Utf8.encode "/out.jar") =
      .ok ([], ⟨Utf8.encode "out.jar", by decide⟩) := by
    decide
  obtain ⟨⟨w', packed, archive⟩, _⟩ :=
    archive_follows_tree dirs site stagedGame_packable (by decide)
  refine ⟨w', packed, archive.trans ?_⟩
  rw [entriesBelow_root stagedGame_packable]
  rfl

/-- The names of the entries that an archive made of a tree has. -/
def entryNames? (fs : FileSystem) (staged archive : String) : Option (List String) :=
  match zipArchiver.pack staged archive { files := fs } with
  | .ok _ w =>
      match w.files.read? (Utf8.encode archive) with
      | some (.archive entries) => some (entries.map Prod.fst)
      | _ => none
  | .error _ _ => none

theorem entryNames?_of_refused
    (refused : ∀ w', zipArchiver.pack staged archive { files := fs } ≠ .ok () w') :
    entryNames? fs staged archive = none := by
  unfold entryNames?
  split
  · rename_i w' packed
    exact absurd packed (refused w')
  · rfl

/-- Where the archive is to be stands a link to an entry of a directory that is not there. -/
def danglingGame : FileSystem := stagedGame.plant "/out.jar" (linkTo "out/b.jar")

/-- A text of the staged directory that is nearly as long as the system takes. -/
def longStaged : String := "/" ++ String.join (List.replicate 2044 "./") ++ "st"

/-- A file of zeros that is one byte too long for an entry. -/
noncomputable def largeFile : Entry := .file (.plain (List.replicate (largestEntry + 1) 0))

/-- The staged tree with that file. -/
noncomputable def largeGame : FileSystem := stagedGame.plant "/st/big" largeFile

theorem at?_largeGame : largeGame.at? (Path.spelled (Utf8.encode "/st/big")) = some largeFile := by
  have free : stagedGame.isFree (Path.spelled (Utf8.encode "/st")) ⟨Utf8.encode "big", by decide⟩ =
      true := by
    decide
  exact (at?_put ..).trans (if_pos ⟨free, rfl⟩)

/-- The large file is not looked at, byte by byte: its length is known. -/
theorem largeGame_refused : entryNames? largeGame "/st" "/out.jar" = none := by
  have dirs : makeArchiveDirs "/out.jar" { files := largeGame } =
    .ok () { files := largeGame } := by rfl
  have site : largeGame.writingSite (Utf8.encode "/out.jar") =
      .ok ([], ⟨Utf8.encode "out.jar", by decide⟩) := by
    decide
  have large : largeGame.limits.fitsEntry (.plain (List.replicate (largestEntry + 1) 0)) =
      false := by
    rw [Limits.fitsEntry, List.length_replicate, decide_eq_false (by omega), Bool.false_and]
  exact entryNames?_of_refused (zipArchiver_of_large dirs site (starts_of_absolute (by decide))
    ⟨40, by decide⟩ (isDirectoryAt_iff.1 (by decide)) (by decide)
    (show largeGame.at? (Path.spelled (Utf8.encode "/st") ++ [⟨Utf8.encode "big", by decide⟩]) =
      _ from at?_largeGame)
    large)

/-- No archive is made where its text leads to nothing that can be written, the texts of the entries
are too long, or a file is too large. A text of the archive that passes through the tree can add
directories to it first. -/
theorem archive_refused :
    (danglingGame.Packable (Utf8.encode "/st") (Path.spelled (Utf8.encode "/st")) ∧
      danglingGame.isDir (Utf8.encode "/") = true ∧
      danglingGame.isDir (Utf8.encode "/out.jar") = false ∧
      entryNames? danglingGame "/st" "/out.jar" = none) ∧
    (stagedGame.isDir (Utf8.encode longStaged) = true ∧
      entryNames? stagedGame longStaged "/out.jar" = none) ∧
    (stagedGame.Packable (Utf8.encode "/st") (Path.spelled (Utf8.encode "/st")) ∧
      (stagedGame.at? (Path.spelled (Utf8.encode "/st/x"))).isNone = true ∧
      entryNames? stagedGame "/st" "/st/x/../../out.jar" = some
        ["META-INF/MANIFEST.MF", "META-INF/", "b/", "b/c.class", "b.lua", "x/"]) ∧
    largeGame.at? (Path.spelled (Utf8.encode "/st/big")) = some largeFile ∧
      entryNames? largeGame "/st" "/out.jar" = none := by
  refine ⟨⟨.of_below (starts_of_absolute (by decide)) ⟨40, by decide⟩
    (isDirectoryAt_iff.1 (by decide)) (by decide) (by decide)
    (by decide) (by decide), ?_⟩, ?_, ⟨stagedGame_packable, ?_⟩,
    at?_largeGame, largeGame_refused⟩
  · decide
  · -- The long text is read byte by byte.
    set_option maxRecDepth 40000 in decide +kernel
  · decide

end ClassPack
