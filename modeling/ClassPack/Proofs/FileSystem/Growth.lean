import ClassPack.Manifest
import ClassPack.Proofs.FileSystem.Leads
import ClassPack.Proofs.Path.Segments

/-!
# Growth — what stays readable while entries are added

A run makes directories and files, and takes away only what it has made itself. All that was there
when it began to make them stays reachable by the same texts:

* `FileSystem.Within fs gs` — directories, files and links of `fs` are so in `gs`; files may hold
  something else;
* `FileSystem.Grows fs gs` — moreover `gs` has no other links, so that steps lead to the same
  places;
* `follow_of_within`, `resolve_of_within`, `canonical?_of_within` — whoever arrives in `fs` arrives
  at the same place in `gs`;
* `FileSystem.read?` — what the file holds that a text leads to, with `read?_eq_some_iff`.
-/

namespace ClassPack
namespace FileSystem

variable {fs gs hs : FileSystem} {p q : Place} {s : List Segment}

theorem zero_not_mem_of_vet {text : Path} (fit : fs.vet text = .ok ()) : 0 ∉ text :=
  fun zero => by simp [vet, zero] at fit

theorem not_exceeds_of_vet {text : Path} (fit : fs.vet text = .ok ()) :
    exceeds text.length fs.limits.path = false := by
  cases long : exceeds text.length fs.limits.path with
  | false => rfl
  | true =>
      rw [vet, if_pos long] at fit
      split at fit
      · cases fit
      · split at fit <;> cases fit

/-- All that stands in a file system also stands in another, files perhaps with other content. -/
structure Within (fs gs : FileSystem) : Prop where
  workingDir : gs.workingDir = fs.workingDir
  limits : gs.limits = fs.limits
  directory : ∀ {q}, fs.at? q = some .directory → gs.at? q = some .directory
  file : ∀ {q content}, fs.at? q = some (.file content) →
    ∃ content', gs.at? q = some (.file content')
  link : ∀ {q target}, fs.at? q = some (.link target) → gs.at? q = some (.link target)

/-- All that stands in a file system also stands in another, which has no other links. -/
structure Grows (fs gs : FileSystem) : Prop extends Within fs gs where
  noLink : ∀ {q target}, gs.at? q = some (.link target) → fs.at? q = some (.link target)

namespace Within

theorem refl (fs : FileSystem) : fs.Within fs where
  workingDir := rfl
  limits := rfl
  directory h := h
  file h := ⟨_, h⟩
  link h := h

theorem trans (h : fs.Within gs) (h' : gs.Within hs) : fs.Within hs where
  workingDir := h'.workingDir.trans h.workingDir
  limits := h'.limits.trans h.limits
  directory there := h'.directory (h.directory there)
  file there := by
    obtain ⟨_, there'⟩ := h.file there
    exact h'.file there'
  link there := h'.link (h.link there)

theorem ne_none (h : fs.Within gs) (there : fs.at? q ≠ none) : gs.at? q ≠ none := by
  cases e : fs.at? q with
  | none => exact absurd e there
  | some entry =>
      cases entry with
      | directory => simp [h.directory e]
      | file content =>
          obtain ⟨_, there'⟩ := h.file e
          simp [there']
      | link target => simp [h.link e]

theorem vet (h : fs.Within gs) (text : Path) : gs.vet text = fs.vet text := by
  simp [FileSystem.vet, h.limits]

/-- A directory was one before, or it is new. -/
theorem missing_or_directory (h : fs.Within gs) (new : gs.at? q = some .directory) :
    fs.at? q = none ∨ fs.at? q = some .directory := by
  cases there : fs.at? q with
  | none => exact .inl rfl
  | some e =>
      cases e with
      | directory => exact .inr rfl
      | file content =>
          obtain ⟨_, stays⟩ := h.file there
          simp [new] at stays
      | link target => simpa [new] using h.link there

end Within

namespace Grows

theorem refl (fs : FileSystem) : fs.Grows fs where
  toWithin := .refl fs
  noLink h := h

theorem trans (h : fs.Grows gs) (h' : gs.Grows hs) : fs.Grows hs where
  toWithin := h.toWithin.trans h'.toWithin
  noLink there := h.noLink (h'.noLink there)

theorem link_iff (h : fs.Grows gs) (q : Place) (target : Path) :
    fs.at? q = some (.link target) ↔ gs.at? q = some (.link target) := ⟨h.link, h.noLink⟩

theorem leads_iff (h : fs.Grows gs) : gs.Leads p s q ↔ fs.Leads p s q :=
  ⟨fun there => there.congr fun q target => (h.link_iff q target).symm, fun there =>
    there.congr h.link_iff⟩

end Grows

/-! ## Arriving -/

theorem at?_of_readable (start : fs.at? p ≠ none) (h : fs.readable p = .ok ()) :
    fs.at? p = some .directory := by
  unfold readable at h
  split at h <;> simp_all

theorem scan_of_within {stretch : Stretch} (h : fs.Within gs) (start : fs.at? p ≠ none)
    (arrive : fs.scan p s = .ok stretch) : gs.scan p s = .ok stretch := by
  -- Whatever was entered or read was a directory, and still is one.
  have enter : ∀ {p}, fs.enterable p = .ok () → gs.enterable p = .ok () := fun open_ => by
    simp [enterable, h.directory (at?_of_enterable open_)]
  have read : ∀ {p}, fs.at? p ≠ none → fs.readable p = .ok () → gs.readable p = .ok () :=
    fun start open_ => by simp [readable, h.directory (at?_of_readable start open_)]
  fun_induction scan fs p s with
  | case1 p => exact arrive
  | case3 p rest open_ ih => simpa [scan, read start open_] using ih start arrive
  | case5 p rest open_ ih =>
      simpa [scan, read start open_] using ih (at?_parent_ne_none start) arrive
  | case9 p n rest open_ short target there =>
      simpa [scan, enter open_, h.limits, short, h.link there] using arrive
  | case10 p n rest open_ short e notLink there ih =>
      have onward := ih (by simp [there]) arrive
      cases e with
      | link target => exact absurd rfl (notLink target)
      | directory => simpa [scan, enter open_, h.limits, short, h.directory there] using onward
      | file content =>
          obtain ⟨_, there'⟩ := h.file there
          simpa [scan, enter open_, h.limits, short, there'] using onward
  | _ => simp_all

/-- Whoever arrives still arrives when more entries are there. -/
theorem follow_of_within {links : Nat} {standing : Standing} (h : fs.Within gs)
    (start : fs.at? p ≠ none) (arrive : fs.follow links p s = .ok standing) :
    gs.follow links p s = .ok standing := by
  fun_induction follow fs links p s with
  | case2 links p s q arrived =>
      rw [follow, scan_of_within h start arrived]
      exact arrive
  | case4 p s dir target rest stretch left ih =>
      rw [follow, scan_of_within h start stretch]
      exact ih (origin_ne_none_of_scan stretch) arrive
  | _ => simp_all

/-! ## Whole texts -/

/-- Something stands where the reading of a text starts: a relative text needs a working
directory. -/
def Starts (fs : FileSystem) (text : Path) : Prop := fs.at? (text.origin fs.workingDir) ≠ none

theorem Starts.of_within {text : Path} (h : fs.Within gs) (starts : fs.Starts text) :
    gs.Starts text := by
  unfold Starts
  rw [h.workingDir]
  exact h.ne_none starts

theorem resolve_eq_ok_iff {text : Path} {standing : Standing} :
    fs.resolve text = .ok standing ↔
      fs.vet text = .ok () ∧
        fs.follow fs.limits.links (text.origin fs.workingDir) text.steps = .ok standing := by
  unfold resolve
  constructor
  · intro h
    obtain ⟨_, fit, way⟩ := ok_of_bind h
    exact ⟨fit, refused_ok way⟩
  · rintro ⟨fit, way⟩
    rw [fit, way]
    rfl

theorem resolve_of_within {text : Path} {standing : Standing} (h : fs.Within gs)
    (starts : fs.Starts text) (arrive : fs.resolve text = .ok standing) :
    gs.resolve text = .ok standing := by
  obtain ⟨fit, way⟩ := resolve_eq_ok_iff.1 arrive
  refine resolve_eq_ok_iff.2 ⟨by rw [h.vet]; exact fit, ?_⟩
  rw [h.limits, h.workingDir]
  exact follow_of_within h starts way

/-- Where a text leads, whether or not anything stands there. -/
def LeadsTo (fs : FileSystem) (text : Path) (q : Place) : Prop :=
  fs.Leads (text.origin fs.workingDir) text.segments q

theorem LeadsTo.unique {text : Path} (h : fs.LeadsTo text p) (h' : fs.LeadsTo text q) : p = q :=
  Leads.unique h h'

theorem Grows.leadsTo_iff {text : Path} (h : fs.Grows gs) :
    gs.LeadsTo text q ↔ fs.LeadsTo text q := by
  unfold LeadsTo
  rw [h.workingDir]
  exact h.leads_iff

/-- A text leads to a place without a stumble. -/
def Arrives (fs : FileSystem) (text : Path) (p : Place) : Prop :=
  ∃ links, fs.resolve text = .ok ⟨p, links⟩

theorem Arrives.of_within {text : Path} (h : fs.Within gs) (starts : fs.Starts text)
    (arrive : fs.Arrives text p) : gs.Arrives text p :=
  arrive.imp fun _ way => resolve_of_within h starts way

theorem Arrives.leads {text : Path} (arrive : fs.Arrives text p) : fs.LeadsTo text p := by
  obtain ⟨links, way⟩ := arrive
  exact (leads_steps_iff text).1 (Leads.of_follow (resolve_eq_ok_iff.1 way).2)

/-- Below where one text leads, one more name leads to the file of that name. -/
theorem Arrives.join_name {base more : Path} {n : Name} {content : Content}
    (arrive : fs.Arrives base p) (relative : more.isAbsolute = false)
    (single : more.segments = [.name n]) (noSlash : more.endsInSlash = false)
    (fit : fs.vet (base.join more) = .ok ()) (there : fs.at? (p ++ [n]) = some (.file content)) :
    fs.Arrives (base.join more) (p ++ [n]) := by
  obtain ⟨links, way⟩ := arrive
  obtain ⟨m, front, stay⟩ := follow_prefix (resolve_eq_ok_iff.1 way).2
  have some_ : more ≠ [] := by
    rintro rfl
    simp [Path.segments_nil] at single
  have here : m.place = p := by
    have := follow_slash_ok stay
    cases this
    rfl
  have above : fs.at? p = some .directory := fs.at?_parent (n := n) (by simp [there])
  have short := fs.name_bounded (p := p) (n := n) (by simp [there])
  refine ⟨m.links, resolve_eq_ok_iff.2 ⟨fit, ?_⟩⟩
  rw [Path.steps, Path.endsInSlash_join relative some_, noSlash,
    Path.segments_join relative, single, Path.origin_join relative, if_neg (by simp),
    List.append_nil, follow_append, front]
  simp [follow, scan, enterable, here, above, short, there]

theorem canonical?_of_within {text found : String} (h : fs.Within gs)
    (starts : fs.Starts (Utf8.encode text)) (there : fs.canonical? text = some found) :
    gs.canonical? text = some found := by
  unfold canonical? at there ⊢
  simp only [h.limits, h.workingDir] at there ⊢
  split at there
  · simp at there
  · rename_i fit
    rw [if_neg fit]
    cases way : fs.follow fs.limits.links (Path.origin (Utf8.encode text) fs.workingDir)
        (Path.steps (Utf8.encode text)) with
    | error e => simp [way] at there
    | ok standing =>
        have stands : gs.at? standing.place ≠ none := h.ne_none (at?_ne_none_of_follow starts way)
        rw [follow_of_within h starts way]
        simp only [way] at there
        split at there
        · simp at there
        · rename_i short
          simp only [Bool.or_eq_true, not_or] at short
          simpa [stands, short.2] using there

theorem isSameFile_of_within {a b : String} (h : fs.Within gs) (startsA : fs.Starts (Utf8.encode a))
    (startsB : fs.Starts (Utf8.encode b)) (same : isSameFile fs a b = true) :
    isSameFile gs a b = true := by
  unfold isSameFile at same ⊢
  cases ha : fs.canonical? a with
  | none => simp [ha] at same
  | some x =>
      cases hb : fs.canonical? b with
      | none => simp [ha, hb] at same
      | some y =>
          rw [canonical?_of_within h startsA ha, canonical?_of_within h startsB hb]
          simpa [ha, hb] using same

/-- A canonical text is that of the place to which the steps can be taken. -/
theorem follow_of_canonical? {text found : String} (h : fs.canonical? text = some found) :
    ∃ m, fs.follow fs.limits.links (Path.origin (Utf8.encode text) fs.workingDir)
      (Path.steps (Utf8.encode text)) = .ok m ∧ Utf8.encode found = m.place.path := by
  unfold canonical? at h
  simp only at h
  split at h
  · simp at h
  · split at h
    · simp at h
    · rename_i standing way
      split at h
      · simp at h
      · exact ⟨standing, way, Utf8.encode_of_decode? h⟩

/-- The text arrives there, unless it is too long to be read. -/
theorem arrives_of_canonical? {text found : String} (h : fs.canonical? text = some found) :
    ∃ p, fs.LeadsTo (Utf8.encode text) p ∧ Utf8.encode found = p.path ∧
      (fs.vet (Utf8.encode text) = .ok () → fs.Arrives (Utf8.encode text) p) := by
  obtain ⟨m, way, spelled⟩ := follow_of_canonical? h
  exact ⟨m.place, (leads_steps_iff _).1 (Leads.of_follow way), spelled,
    fun fit => ⟨m.links, resolve_eq_ok_iff.2 ⟨fit, way⟩⟩⟩

theorem arrives_of_isSameFile {a b : String} (h : isSameFile fs a b = true) :
    ∃ p, fs.LeadsTo (Utf8.encode a) p ∧ fs.LeadsTo (Utf8.encode b) p ∧
      (fs.vet (Utf8.encode b) = .ok () → fs.Arrives (Utf8.encode b) p) := by
  unfold isSameFile at h
  split at h
  · rename_i x y ha hb
    obtain ⟨p, leadsA, spelledA, _⟩ := arrives_of_canonical? ha
    obtain ⟨q, leadsB, spelledB, arrives⟩ := arrives_of_canonical? hb
    obtain rfl : p = q := Path.path_injective (by rw [← spelledA, ← spelledB, beq_iff_eq.1 h])
    exact ⟨p, leadsA, leadsB, arrives⟩
  · simp at h

/-! ## Reading -/

/-- What the file holds that a text leads to. -/
def read? (fs : FileSystem) (text : Path) : Option Content :=
  match fs.lookup text with
  | .ok (_, .file content) => some content
  | _ => none

theorem lookup_eq_ok_iff {text : Path} {standing : Standing} {e : Entry} :
    fs.lookup text = .ok (standing, e) ↔
      fs.resolve text = .ok standing ∧ fs.at? standing.place = some e := by
  unfold lookup
  constructor
  · intro h
    obtain ⟨m, way, h⟩ := ok_of_bind h
    split at h
    · rename_i e' there
      cases h
      exact ⟨way, there⟩
    · cases h
  · rintro ⟨way, there⟩
    simp [way, there, bind, Except.bind]

theorem read?_eq_some_iff {text : Path} {content : Content} :
    fs.read? text = some content ↔
      ∃ p, fs.Arrives text p ∧ fs.at? p = some (.file content) := by
  unfold read?
  constructor
  · intro h
    split at h
    · rename_i standing content' found
      cases h
      obtain ⟨way, there⟩ := lookup_eq_ok_iff.1 found
      exact ⟨standing.place, ⟨standing.links, way⟩, there⟩
    · simp at h
  · rintro ⟨p, ⟨links, way⟩, there⟩
    rw [lookup_eq_ok_iff.2 ⟨way, there⟩]

theorem isDir_iff {text : Path} :
    fs.isDir text = true ↔
      ∃ p, fs.Arrives text p ∧ fs.at? p = some .directory := by
  unfold isDir
  constructor
  · intro h
    split at h
    · rename_i standing found
      obtain ⟨way, there⟩ := lookup_eq_ok_iff.1 found
      exact ⟨standing.place, ⟨standing.links, way⟩, there⟩
    · simp at h
  · rintro ⟨p, ⟨links, way⟩, there⟩
    rw [lookup_eq_ok_iff.2 ⟨way, there⟩]

/-- Where a text resolves to is where its steps lead. -/
theorem LeadsTo.of_resolve {text : Path} {standing : Standing}
    (h : fs.resolve text = .ok standing) : fs.LeadsTo text standing.place :=
  Arrives.leads ⟨standing.links, h⟩

end FileSystem
end ClassPack
