import ClassPack.Proofs.Archiving

/-!
# Entries — what an archive holds that the library makes itself

* `mem_listing` — a staged tree is listed as it stands;
* `Listed.Fits` — what can be packed, and `packListing_fault_eq_none_iff`, that nothing else
  stands in the way;
* `mem_packListing` — unless something stands in the way, the entries are those of the listing: the
  files with their content, and the directories;
* `mem_entries_iff` — under the name of a file of the tree an archive holds that file's content,
  and nothing else.
-/

namespace ClassPack

open FileSystem

variable {fs : FileSystem} {st names : Place} {staged name : String} {content : Content}
  {item : Listed} {listed : List (Except WalkFault Listed)}

theorem mem_listing {text : Path} (arrives : fs.Arrives text st)
    (directory : fs.at? st = some .directory) : .ok item ∈ fs.listing text ↔
      item.names ≠ [] ∧ fs.at? (st ++ item.names) = some item.entry ∧
        item.path = Path.join text item.names.relativePath := by
  obtain ⟨links, way⟩ := arrives
  have found : fs.lookup text = .ok (⟨st, links⟩, .directory) := lookup_eq_ok_iff.2 ⟨way, directory⟩
  unfold listing
  simp only [found, List.mem_flatMap, Prod.exists, mem_below]
  constructor
  · rintro ⟨names, entry, ⟨inner, there⟩, member⟩
    have same : item = ⟨names, Path.join text names.relativePath, entry⟩ := by
      split at member <;> simpa using member
    subst same
    exact ⟨inner, there, rfl⟩
  · rintro ⟨inner, there, path⟩
    refine ⟨item.names, item.entry, ⟨inner, there⟩, ?_⟩
    have same : item = ⟨item.names, Path.join text item.names.relativePath, item.entry⟩ := by
      rw [← path]
    split <;> simp [← same]

/-- Where no text is too long, all that lies below a directory is listed. -/
theorem listing_eq {text : Path} (arrives : fs.Arrives text st)
    (directory : fs.at? st = some .directory) (fit : ∀ r : Place, r ≠ [] → fs.at? (st ++ r) ≠ none →
      fs.vet (text.join r.relativePath) = .ok ()) :
    fs.listing text =
      ((fs.below st).map fun (r, e) => (⟨r, text.join r.relativePath, e⟩ : Listed)).map .ok := by
  obtain ⟨links, way⟩ := arrives
  have found : fs.lookup text = .ok (⟨st, links⟩, .directory) := lookup_eq_ok_iff.2 ⟨way, directory⟩
  unfold listing
  simp only [found, List.map_map]
  rw [List.map_eq_flatMap]
  refine List.flatMap_congr ?_
  rintro ⟨r, e⟩ there
  obtain ⟨inner, stands⟩ := mem_below.1 there
  rw [fit r inner (by simp [stands])]
  cases e <;> rfl

/-- Whether an entry of an archive takes what stands at a place, if it is a file. -/
def Entry.fitsArchive (limits : Limits) : Entry → Bool
  | .file content => limits.fitsEntry content
  | _ => true

/-- A listed item that can be packed: its names make a text and, if it is a file, its path is not
too long and an entry takes it. -/
structure Listed.Fits (fs : FileSystem) (item : Listed) : Prop where
  text : ∃ name, Utf8.encode name = item.names.relativePath
  path : ∀ content, item.entry = .file content → fs.vet item.path = .ok ()
  size : ∀ content, item.entry = .file content → fs.limits.fitsEntry content = true

/-- Nothing stands in the way of a listing that has no errors and in which all can be packed, -/
theorem packListing_of_fits {items : List Listed} (fine : ∀ item ∈ items, item.Fits fs) :
    (packListing fs staged (items.map .ok)).fault = none := by
  induction items with
  | nil => rfl
  | cons item rest ih =>
      obtain ⟨⟨⟨text, spelled⟩, path, size⟩, others⟩ := List.forall_mem_cons.1 fine
      have later := ih others
      rw [List.map_cons, packListing, ← spelled, Utf8.decode?_encode]
      cases entry : item.entry with
      | directory => simpa [entry] using later
      | link target => simpa [entry] using later
      | file content => simpa [entry, path content entry, size content entry] using later

/-- and of no other. -/
theorem packListing_fault_eq_none_iff :
    (packListing fs staged listed).fault = none ↔
      ∃ items : List Listed, listed = items.map .ok ∧ ∀ item ∈ items, item.Fits fs := by
  constructor
  · intro h
    -- One more item in front.
    have cons : ∀ {first : Listed} {rest : List (Except WalkFault Listed)}, first.Fits fs →
        (∃ items : List Listed, rest = items.map .ok ∧ ∀ item ∈ items, item.Fits fs) →
        ∃ items : List Listed, .ok first :: rest = items.map .ok ∧
          ∀ item ∈ items, item.Fits fs := by
      rintro first rest fits ⟨items, rfl, others⟩
      exact ⟨first :: items, rfl, List.forall_mem_cons.2 ⟨fits, others⟩⟩
    fun_induction packListing fs staged listed with
    | case1 => exact ⟨[], rfl, by simp⟩
    | case2 rest fault => cases h
    | case3 item rest unspelled => cases h
    | case4 item rest name spelled entry more ih =>
        exact cons ⟨⟨name, Utf8.encode_of_decode? spelled⟩, by simp [entry], by simp [entry]⟩ (ih h)
    | case5 item rest name spelled target entry ih =>
        exact cons ⟨⟨name, Utf8.encode_of_decode? spelled⟩, by simp [entry], by simp [entry]⟩ (ih h)
    | case6 item rest name spelled content entry e refused => cases h
    | case7 item rest name spelled content entry vetted fits more ih =>
        refine cons ⟨⟨name, Utf8.encode_of_decode? spelled⟩, fun _ _ =>
          vetted, fun content' file => ?_⟩ (ih h)
        cases entry.symm.trans file
        exact fits
    | case8 item rest name spelled content entry vetted large => cases h
  · rintro ⟨items, rfl, fine⟩
    exact packListing_of_fits fine

/-- So an entry takes every file of a tree in which nothing stands in the way. -/
theorem fitsEntry_of_packListing (arrives : fs.Arrives (Utf8.encode staged) st)
    (directory : fs.at? st = some .directory)
    (fine : (packListing fs staged (fs.listing (Utf8.encode staged))).fault = none)
    (file : fs.at? (st ++ names) = some (.file content)) : fs.limits.fitsEntry content = true := by
  obtain ⟨items, whole, fits⟩ := packListing_fault_eq_none_iff.1 fine
  have inner : names ≠ [] := by
    rintro rfl
    simp [directory] at file
  have listed : .ok ⟨names, Path.join (Utf8.encode staged) names.relativePath, .file content⟩ ∈
      fs.listing (Utf8.encode staged) := (mem_listing arrives directory).2 ⟨inner, file, rfl⟩
  rw [whole] at listed
  obtain ⟨item, there, same⟩ := List.mem_map.1 listed
  cases same
  exact (fits _ there).size content rfl

/-- The entry that a listed file or directory becomes. -/
def Listed.Gives (item : Listed) (e : String × Content) : Prop :=
  ∃ text, Utf8.decode? item.names.relativePath = some text ∧
    (item.entry = .file e.2 ∧ e.1 = text ∨ item.entry = .directory ∧ e = (text ++ "/", .plain []))

theorem Listed.gives_iff {text : String}
    (spelled : Utf8.decode? item.names.relativePath = some text) (e : String × Content) :
    item.Gives e ↔
      (item.entry = .file e.2 ∧ e.1 = text ∨ item.entry = .directory ∧
        e = (text ++ "/", .plain [])) := by
  simp [Gives, spelled]

/-- Unless something stands in the way, every file and every directory of a listing becomes an
entry. -/
theorem mem_packListing {e : String × Content} (h : (packListing fs staged listed).fault = none) :
    e ∈ (packListing fs staged listed).entries ↔ ∃ item, .ok item ∈ listed ∧ item.Gives e := by
  -- What the first item gives, and what the others give.
  have split : ∀ {first : Listed} {rest : List (Except WalkFault Listed)},
      (∃ item, .ok item ∈ .ok first :: rest ∧ item.Gives e) ↔
        first.Gives e ∨ ∃ item, .ok item ∈ rest ∧ item.Gives e := fun {first rest} => by
    simp [or_and_right, exists_or]
  fun_induction packListing fs staged listed with
  | case1 => simp
  | case2 rest fault => simp at h
  | case3 item rest unspelled => simp at h
  | case4 item rest text spelled entry more ih =>
      rw [split, Listed.gives_iff spelled, List.mem_cons, entry]
      simpa using or_congr_right (ih h)
  | case5 item rest text spelled target entry ih =>
      rw [split, Listed.gives_iff spelled, entry]
      simpa using ih h
  | case6 item rest text spelled content' entry e vetted => simp at h
  | case7 item rest text spelled content' entry vetted fits more ih =>
      rw [split, Listed.gives_iff spelled, List.mem_cons, entry]
      simpa [Prod.ext_iff, and_comm, eq_comm] using or_congr_right (ih h)
  | case8 item rest text spelled content' entry vetted large => simp at h

/-- What comes before the tree's entries is at most the manifest and its directory. -/
theorem name_of_mem_prologue {e : String × Content} (h : e ∈ prologue fs staged) :
    e.1 = manifestName ∨ e.1 = manifestDir ++ "/" := by
  unfold prologue at h
  split at h
  · simp at h
  · rcases List.mem_append.1 h with first | second
    · split at first
      · simp at first
      · exact .inr (by rw [List.mem_singleton.1 first])
    · exact .inl (by rw [List.mem_singleton.1 second])

/-- No text of a place is the name of a directory's entry. -/
theorem ne_append_slash (spelled : Utf8.encode name = names.relativePath) (text : String) :
    name ≠ text ++ "/" := by
  rintro rfl
  rw [Utf8.encode_append, show Utf8.encode "/" = [slash] by decide] at spelled
  exact Path.relativePath_ne_append_slash names spelled.symm

/-- Under the name of a file of the tree an archive holds what the file holds, and nothing else. -/
theorem mem_entries_iff (arrives : fs.Arrives (Utf8.encode staged) st)
    (directory : fs.at? st = some .directory)
    (fine : (packListing fs staged (fs.listing (Utf8.encode staged))).fault = none)
    (spelled : Utf8.encode name = names.relativePath) (inner : names ≠ [])
    (other : name ≠ manifestName) : (name, content) ∈ prologue fs staged ++
        (packListing fs staged (fs.listing (Utf8.encode staged))).entries ↔
      fs.at? (st ++ names) = some (.file content) := by
  rw [List.mem_append, mem_packListing fine]
  constructor
  · rintro (first | ⟨item, listed, text, decoded, ⟨file, same⟩ | ⟨_, same⟩⟩)
    · -- The file is neither the manifest nor a directory.
      rcases name_of_mem_prologue first with same | same
      · exact absurd same other
      · exact absurd same (ne_append_slash spelled manifestDir)
    · -- Different places are spelled differently, so this is the file asked for.
      obtain ⟨_, there, _⟩ := (mem_listing arrives directory).1 listed
      have : item.names = names := by
        refine Path.relativePath_injective ?_
        rw [← Utf8.encode_of_decode? decoded, ← spelled, show name = text from same]
      rw [← this, there, file]
    · exact absurd (Prod.mk.inj same).1 (ne_append_slash spelled text)
  · intro there
    refine .inr ⟨⟨names, Path.join (Utf8.encode staged) names.relativePath, .file content⟩,
      ?_, name, ?_, .inl ⟨rfl, rfl⟩⟩
    · exact (mem_listing arrives directory).2 ⟨inner, there, rfl⟩
    · rw [← spelled, Utf8.decode?_encode]

end ClassPack
