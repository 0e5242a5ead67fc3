import ClassPack.Artifact
import ClassPack.Config
import ClassPack.Proofs.FileSystem.Leads
import Mathlib.Data.List.Basic

/-!
# Segments — the steps of joined texts and of the texts above

* `Path.Descends`, a text that starts from where it is read and never steps up, with the checks and
  constructions that give such texts (`descends_of_isPlainlyBelow`, `descends_relativePath`);
* `Path.segments_join`, the steps of a joined text are those of its two parts;
* `Path.segments_of_mem_ancestors`, the steps of a text above are the first steps of the text.
-/

namespace ClassPack
namespace Path

variable {p q : Path}

/-! ## Joined texts -/

theorem pieces_append_slash (p q : Path) : pieces (p ++ slash :: q) = pieces p ++ pieces q := by
  induction p with
  | nil =>
      simp [pieces]
  | cons b rest ih =>
      by_cases same : b = slash
      · simp [pieces, same, ih]
      · cases split : pieces rest with
        | nil =>
            exact absurd split (pieces_ne_nil rest)
        | cons first more =>
            simp [pieces, same, ih, split]

theorem segments_append_slash (p q : Path) :
    segments (p ++ slash :: q) = segments p ++ segments q := by
  simp [segments, pieces_append_slash]

@[simp] theorem segments_nil : segments [] = [] := by decide

theorem eq_append_slash_of_endsInSlash (h : endsInSlash p = true) :
    ∃ front, p = front ++ [slash] := by
  have last : p.getLast? = some slash := by simpa [endsInSlash] using h
  exact ⟨p.dropLast, (List.dropLast_append_getLast? slash last).symm⟩

/-- A text that does not end in a slash, or one more slash behind it: the steps are the same. -/
theorem segments_append_of_endsInSlash (h : endsInSlash p = true) (q : Path) :
    segments (p ++ q) = segments p ++ segments q := by
  obtain ⟨front, rfl⟩ := eq_append_slash_of_endsInSlash h
  have one : segments (front ++ [slash]) = segments front := by
    simpa using segments_append_slash front []
  rw [one, List.append_assoc]
  exact segments_append_slash front q

theorem segments_join (relative : isAbsolute q = false) :
    segments (join p q) = segments p ++ segments q := by
  unfold join
  rw [if_neg (by simp [relative])]
  split
  · rename_i h
    rcases h with rfl | slashed
    · simp
    · exact segments_append_of_endsInSlash slashed q
  · exact segments_append_slash p q

theorem isAbsolute_join (relative : isAbsolute q = false) :
    isAbsolute (join p q) = isAbsolute p := by
  unfold join
  rw [if_neg (by simp [relative])]
  split
  · rename_i h
    rcases h with rfl | slashed
    · simpa [isAbsolute] using relative
    · cases p with
      | nil => simp [endsInSlash] at slashed
      | cons b rest => simp [isAbsolute]
  · rename_i h
    cases p with
    | nil => simp at h
    | cons b rest => simp [isAbsolute]

theorem origin_join (relative : isAbsolute q = false) (dir : Place) :
    origin (join p q) dir = origin p dir := by
  simp [origin, isAbsolute_join relative]

theorem join_ne_nil (p : Path) (some_ : q ≠ []) : join p q ≠ [] := by
  unfold join
  split
  · exact some_
  · split <;> simp [some_]

theorem endsInSlash_join (relative : isAbsolute q = false) (some_ : q ≠ []) :
    endsInSlash (join p q) = endsInSlash q := by
  obtain ⟨b, rest, rfl⟩ := List.exists_cons_of_ne_nil some_
  unfold join
  rw [if_neg (by simp [relative])]
  split <;> simp [endsInSlash, List.getLast?_append, List.getLast?_cons_cons]

/-! ## Texts that never step up -/

/-- A text that starts from where it is read and never steps up. -/
structure Descends (p : Path) : Prop where
  relative : isAbsolute p = false
  noUp : Segment.up ∉ p.segments

/-- A step up in a text comes from two dots between slashes. -/
theorem dots_mem_of_up_mem (h : Segment.up ∈ p.segments) : [dot, dot] ∈ pieces p := by
  obtain ⟨piece, there, up⟩ := List.mem_filterMap.1 h
  unfold Segment.ofPiece? at up
  split at up
  · simp at up
  · split at up
    · rename_i dots
      exact dots ▸ there
    · simp at up

theorem up_mem_components (h : [dot, dot] ∈ pieces p) : Component.up ∈ components p := by
  have counted : Component.ofPiece? [dot, dot] = some .up := by decide
  unfold components
  split
  · rename_i none_
    simp [none_] at h
  · rename_i first rest split
    rw [split] at h
    rcases List.mem_cons.1 h with rfl | later
    · -- The two dots come first.
      have other : ([dot, dot] : Bytes) ≠ [] ∧ ([dot, dot] : Bytes) ≠ [dot] := by decide
      simp [other.1, other.2, counted]
    · have tail : Component.up ∈ rest.filterMap Component.ofPiece? :=
        List.mem_filterMap.2 ⟨_, later, counted⟩
      split
      · simp [tail, List.ne_nil_of_mem later]
      · split <;> simp [tail]

theorem root_mem_components (h : isAbsolute p = true) : Component.root ∈ components p := by
  obtain ⟨rest, rfl⟩ : ∃ rest, p = slash :: rest := by
    cases p with
    | nil => simp [isAbsolute] at h
    | cons b rest => exact ⟨rest, by simpa [isAbsolute] using h⟩
  have more : pieces rest ≠ [] := pieces_ne_nil rest
  simp [components, pieces, more]

/-- What has only names and dots among its components never steps up. -/
theorem descends_of_components (h : ∀ c ∈ components p, c.isDownward = true) : Descends p where
  relative := by
    by_contra absolute
    simpa [Component.isDownward] using h _ (root_mem_components (by simpa using absolute))
  noUp up := by
    simpa [Component.isDownward] using h _ (up_mem_components (dots_mem_of_up_mem up))

/-- A text that holds no slash is a single piece. -/
theorem pieces_of_slash_not_mem (plain : slash ∉ p) : pieces p = [p] := by
  simpa [glue] using pieces_glue (l := [p]) (by simp) (by simpa using plain)

/-- A text that holds no slash, other than the two dots, never steps up. -/
theorem descends_of_slash_not_mem (plain : slash ∉ p) (other : p ≠ [dot, dot]) : Descends p where
  relative := by
    cases p with
    | nil => rfl
    | cons b rest =>
        have : b ≠ slash := fun same => plain (by simp [same])
        simp [isAbsolute, this]
  noUp up := by
    have := dots_mem_of_up_mem up
    rw [pieces_of_slash_not_mem plain, List.mem_singleton] at this
    exact other this.symm

/-! ## Names in a text -/

theorem mem_of_mem_pieces {piece : Bytes} {b : UInt8} (h : piece ∈ pieces p) (there : b ∈ piece) :
    b ∈ p := by
  induction p generalizing piece with
  | nil =>
      obtain rfl : piece = [] := by simpa [pieces] using h
      simp at there
  | cons first rest ih =>
      unfold pieces at h
      split at h
      · rcases List.mem_cons.1 h with rfl | later
        · simp at there
        · exact List.mem_cons_of_mem _ (ih later there)
      · -- The first byte goes to the front of the first piece.
        cases split : pieces rest with
        | nil => exact absurd split (pieces_ne_nil rest)
        | cons second more =>
            rw [split] at h ih
            rcases List.mem_cons.1 h with rfl | later
            · rcases List.mem_cons.1 there with rfl | inner
              · exact List.mem_cons_self ..
              · exact List.mem_cons_of_mem _ (ih (List.mem_cons_self ..) inner)
            · exact List.mem_cons_of_mem _ (ih (List.mem_cons_of_mem _ later) there)

theorem ofPiece?_eq_name {piece bytes : Bytes} (h : Component.ofPiece? piece = some (.name bytes)) :
    piece = bytes ∧ bytes ≠ [] ∧ bytes ≠ [dot] ∧ bytes ≠ [dot, dot] := by
  unfold Component.ofPiece? at h
  split at h
  · simp at h
  · rename_i plain
    split at h
    · simp at h
    · rename_i other
      obtain rfl : piece = bytes := by simpa using h
      exact ⟨rfl, fun empty => plain (.inl empty), fun single => plain (.inr single), other⟩

theorem mem_pieces_of_name_mem {bytes : Bytes} (h : .name bytes ∈ components p) :
    bytes ∈ pieces p ∧ bytes ≠ [] ∧ bytes ≠ [dot] ∧ bytes ≠ [dot, dot] := by
  have inner : ∀ {rest : List Bytes}, .name bytes ∈ rest.filterMap Component.ofPiece? →
      bytes ∈ rest ∧ bytes ≠ [] ∧ bytes ≠ [dot] ∧ bytes ≠ [dot, dot] := fun there => by
    obtain ⟨piece, member, counts⟩ := List.mem_filterMap.1 there
    obtain ⟨rfl, plain⟩ := ofPiece?_eq_name counts
    exact ⟨member, plain⟩
  unfold components at h
  -- All but the first piece are read alike, whatever the first one says.
  split at h
  · simp at h
  · rename_i first rest split
    rw [split]
    split at h
    · split at h
      · simp at h
      · have := inner (by simpa using h)
        exact ⟨List.mem_cons_of_mem _ this.1, this.2⟩
    · split at h
      · have := inner (by simpa using h)
        exact ⟨List.mem_cons_of_mem _ this.1, this.2⟩
      · rcases List.mem_append.1 h with front | back
        · obtain ⟨rfl, plain⟩ := ofPiece?_eq_name (Option.mem_toList.1 front)
          exact ⟨List.mem_cons_self .., plain⟩
        · have := inner back
          exact ⟨List.mem_cons_of_mem _ this.1, this.2⟩

/-- A text with a name among its components asks for a name, unless it holds a zero byte. -/
theorem names_ne_nil (h : ∃ c ∈ components p, c.isName = true) (noZero : 0 ∉ p) :
    Segment.names p.segments ≠ [] := by
  obtain ⟨c, there, named⟩ := h
  cases c with
  | name bytes =>
      obtain ⟨member, some_, notHere, notUp⟩ := mem_pieces_of_name_mem there
      -- What is missing for a valid name is that it holds no slash and no zero byte.
      have valid : Name.Valid bytes :=
        ⟨some_, notHere, notUp, slash_not_mem_of_mem_pieces member, fun zero =>
          noZero (mem_of_mem_pieces member zero)⟩
      have asked : Segment.name ⟨bytes, valid⟩ ∈ p.segments :=
        List.mem_filterMap.2 ⟨bytes, member, by
          simp [Segment.ofPiece?, notHere, notUp, Name.ofBytes?, valid]⟩
      intro none_
      have : (⟨bytes, valid⟩ : Name) ∈ Segment.names p.segments :=
        List.mem_filterMap.2 ⟨_, asked, rfl⟩
      simp [none_] at this
  | root => simp [Component.isName] at named
  | here => simp [Component.isName] at named
  | up => simp [Component.isName] at named

/-! ## Steps but for the dots -/

/-- The steps that a text asks for, but for the dots. -/
def moves (p : Path) : List Segment := p.segments.filter (· ≠ .here)

/-- The step that a component asks for, if it can be one. -/
def Component.step? : Component → Option Segment
  | .name bytes => (Name.ofBytes? bytes).map .name
  | .up => some .up
  | _ => none

/-- The name that a component gives, if it can be one. -/
def Component.name? : Component → Option Name
  | .name bytes => Name.ofBytes? bytes
  | _ => none

theorem moves_eq_filterMap (p : Path) : moves p = (components p).filterMap Component.step? := by
  -- Piece by piece, the step and the component ask for the same, unless it is a dot.
  have all : ∀ l : List Bytes, (l.filterMap Segment.ofPiece?).filter (· ≠ .here) =
      (l.filterMap Component.ofPiece?).filterMap Component.step? := by
    intro l
    rw [List.filter_filterMap, List.filterMap_filterMap]
    congr 1
    funext piece
    unfold Segment.ofPiece? Component.ofPiece?
    by_cases empty : piece = []
    · subst empty
      rfl
    by_cases single : piece = [dot]
    · simp [single]
    by_cases double : piece = [dot, dot]
    · simp [double, Component.step?, dot]
    · cases named : Name.ofBytes? piece <;> simp [empty, single, double, named, Component.step?]
  rw [moves, segments, all]
  unfold components
  cases pieces p with
  | nil => rfl
  | cons first rest =>
      dsimp only
      by_cases empty : first = []
      · -- The slash at the front is a component, but no step.
        subst empty
        by_cases alone : rest = []
        · subst alone
          rfl
        · simp [alone, Component.ofPiece?, Component.step?, List.filterMap_cons]
      · by_cases single : first = [dot]
        · simp [single, Component.ofPiece?, Component.step?, List.filterMap_cons]
        · rw [if_neg empty, if_neg single, List.filterMap_cons]
          cases Component.ofPiece? first <;> rfl

@[simp] theorem names_moves (p : Path) : Segment.names p.moves = Segment.names p.segments := by
  unfold moves Segment.names
  rw [List.filterMap_filter]
  congr 1
  funext step
  cases step <;> simp

/-- The names that a text asks for are those of its components. -/
theorem names_segments (p : Path) :
    Segment.names p.segments = (components p).filterMap Component.name? := by
  rw [← names_moves, moves_eq_filterMap, Segment.names, List.filterMap_filterMap]
  congr 1
  funext c
  cases c with
  | name bytes =>
      cases named : Name.ofBytes? bytes <;> simp [Component.step?, Component.name?, named]
  | _ => rfl

theorem moves_join (relative : isAbsolute q = false) : moves (join p q) = moves p ++ moves q := by
  simp [moves, segments_join relative]

/-- A text that starts with another one takes the steps of that one first. -/
theorem moves_prefix_of_startsWith (h : startsWith p q = true) : moves q <+: moves p := by
  rw [moves_eq_filterMap, moves_eq_filterMap]
  exact (List.isPrefixOf_iff_prefix.1 h).filterMap _

/-- Only the components of an absolute text begin with the root. -/
theorem head?_components (some_ : p ≠ []) :
    ∃ c, (components p).head? = some c ∧ (c = .root ↔ isAbsolute p = true) := by
  obtain ⟨b, rest, rfl⟩ := List.exists_cons_of_ne_nil some_
  have absolute : isAbsolute (b :: rest) = true ↔ b = slash := by simp [isAbsolute]
  obtain ⟨second, more, split⟩ := List.exists_cons_of_ne_nil (pieces_ne_nil rest)
  rw [absolute]
  by_cases root : b = slash
  · exact ⟨.root, by simp [components, pieces, root, split], by simp [root]⟩
  · by_cases single : b :: second = [dot]
    · exact ⟨.here, by simp [components, pieces, root, split, single], by simp [root]⟩
    · -- The first piece counts, and is not the root.
      have counts : ∃ c, Component.ofPiece? (b :: second) = some c ∧ c ≠ .root := by
        unfold Component.ofPiece?
        rw [if_neg (by simpa using single)]
        split <;> exact ⟨_, rfl, by simp⟩
      obtain ⟨c, counts, other⟩ := counts
      exact ⟨c, by simp [components, pieces, root, split, single, counts], by simp [root, other]⟩

/-- Unless it is empty, it starts from the same place. -/
theorem isAbsolute_of_startsWith (h : startsWith p q = true) (some_ : q ≠ []) :
    isAbsolute p = isAbsolute q := by
  obtain ⟨rest, split⟩ := List.isPrefixOf_iff_prefix.1 h
  obtain ⟨c, first, root⟩ := head?_components some_
  have text : p ≠ [] := by
    rintro rfl
    rw [show components [] = [] from rfl, List.append_eq_nil_iff] at split
    simp [split.1] at first
  obtain ⟨c', first', root'⟩ := head?_components text
  obtain rfl : c = c' := by
    rw [← split, List.head?_append, first] at first'
    simpa using first'
  exact Bool.eq_iff_iff.2 (root'.symm.trans root)

/-! ## The texts of places -/

theorem ofPiece?_bytes (n : Name) : Segment.ofPiece? n.bytes = some (.name n) := by
  obtain ⟨_, notHere, notUp, _, _⟩ := n.valid
  simp [Segment.ofPiece?, notHere, notUp, Name.ofBytes?, n.valid]

theorem pieces_relativePath (n : Name) (more : Place) :
    pieces (Place.relativePath (n :: more)) = (n :: more).map Name.bytes := by
  refine pieces_glue (by simp) fun piece there => ?_
  obtain ⟨m, _, rfl⟩ := List.mem_map.1 there
  exact m.valid.2.2.2.1

theorem segments_relativePath (names : Place) : segments names.relativePath = names.map .name := by
  cases names with
  | nil => rfl
  | cons n more =>
      rw [segments, pieces_relativePath, List.filterMap_map]
      have each : Segment.ofPiece? ∘ Name.bytes = fun m => some (Segment.name m) :=
        funext fun m => ofPiece?_bytes m
      rw [each, List.filterMap_eq_map']

@[simp] theorem segments_path (place : Place) : segments place.path = place.map .name := by
  simpa [Place.path, segments_relativePath, show segments [] = [] by decide] using
    segments_append_slash [] place.relativePath

@[simp] theorem moves_path (place : Place) : moves place.path = place.map .name := by
  simp [moves]

@[simp] theorem isAbsolute_path (place : Place) : isAbsolute place.path = true := by
  simp [Place.path, isAbsolute]

theorem isAbsolute_relativePath (names : Place) : isAbsolute names.relativePath = false := by
  cases names with
  | nil => rfl
  | cons n more =>
      obtain ⟨some_, _, _, plain, _⟩ := n.valid
      obtain ⟨b, rest, start⟩ := List.exists_cons_of_ne_nil some_
      have other : b ≠ slash := fun same => plain (by simp [start, same])
      -- The first byte of the first name is the first byte of all.
      have first : (Place.relativePath (n :: more)).head? = some b := by
        cases more <;> simp [Place.relativePath, glue, start]
      simp [isAbsolute, first, other]

theorem descends_relativePath (names : Place) : Descends names.relativePath where
  relative := isAbsolute_relativePath names
  noUp := by simp [segments_relativePath]

/-- Different places have different texts. -/
theorem relativePath_injective {p q : Place} (h : p.relativePath = q.relativePath) : p = q := by
  have steps : p.map Segment.name = q.map .name := by
    rw [← segments_relativePath, ← segments_relativePath, h]
  exact List.map_injective_iff.2 (fun _ _ => Segment.name.inj) steps

theorem path_injective {p q : Place} (h : p.path = q.path) : p = q :=
  relativePath_injective (List.cons.inj h).2

/-- The text of a place does not end in a slash. -/
theorem relativePath_ne_append_slash (names : Place) : names.relativePath ≠ p ++ [slash] := by
  intro h
  cases names with
  | nil => simp [Place.relativePath, glue] at h
  | cons n more =>
      have split := pieces_relativePath n more
      rw [h, pieces_append_slash] at split
      -- The last piece would be empty, and no name is.
      have last : [] ∈ (n :: more).map Name.bytes :=
        split ▸ List.mem_append_right _ (by simp [pieces])
      obtain ⟨m, _, empty⟩ := List.mem_map.1 last
      exact m.valid.1 empty

/-! ## The texts above -/

theorem suffix_of_mem_beginnings {absolute : Bool} {l all : List Bytes}
    (h : l ∈ beginnings absolute all) : l ≠ [] ∧ l <:+ all := by
  induction all with
  | nil => simp [beginnings] at h
  | cons piece before ih =>
      unfold beginnings at h
      split at h
      · exact ⟨(ih h).1, (ih h).2.trans (List.suffix_cons piece before)⟩
      · rcases List.mem_cons.1 h with rfl | shorter
        · exact ⟨by simp, List.suffix_refl _⟩
        · exact ⟨(ih shorter).1, (ih shorter).2.trans (List.suffix_cons piece before)⟩

theorem segments_eq_filterMap_body (p : Path) :
    segments p = (body p).reverse.filterMap Segment.ofPiece? := by
  unfold body
  split
  · rename_i absolute
    cases p with
    | nil => simp [isAbsolute] at absolute
    | cons b rest =>
        have : b = slash := by simpa [isAbsolute] using absolute
        subst this
        rw [show slash :: rest = [] ++ slash :: rest from rfl, segments_append_slash, segments_nil]
        simp [pieces, segments]
  · simp [segments]

theorem slash_not_mem_of_mem_body {piece : Bytes} (h : piece ∈ body p) : slash ∉ piece := by
  unfold body at h
  split at h
  · exact slash_not_mem_of_mem_pieces (List.drop_subset 1 _ (List.mem_reverse.1 h))
  · exact slash_not_mem_of_mem_pieces (List.mem_reverse.1 h)

/-- The first pieces of a text, put together, ask for its first steps. -/
theorem segments_ofBody {l : List Bytes} (some_ : l ≠ []) (start : l <:+ body p) :
    segments (ofBody (isAbsolute p) l) <+: segments p := by
  have plain : ∀ piece ∈ l.reverse, slash ∉ piece := fun piece there =>
    slash_not_mem_of_mem_body (start.subset (List.mem_reverse.1 there))
  have read : segments (glue l.reverse) = l.reverse.filterMap Segment.ofPiece? := by
    rw [segments, pieces_glue (by simpa using some_) plain]
  have same : segments (ofBody (isAbsolute p) l) = l.reverse.filterMap Segment.ofPiece? := by
    unfold ofBody
    split
    · simpa [read] using segments_append_slash [] (glue l.reverse)
    · exact read
  -- A body holds the pieces last first.
  rw [same, segments_eq_filterMap_body]
  exact (List.reverse_prefix.2 start).filterMap _

theorem isAbsolute_ofBody {l : List Bytes} (some_ : l ≠ []) (text : p ≠ []) (start : l <:+ body p) :
    isAbsolute (ofBody (isAbsolute p) l) = isAbsolute p := by
  cases absolute : isAbsolute p with
  | true => simp [ofBody, isAbsolute]
  | false =>
      obtain ⟨b, rest, rfl⟩ := List.exists_cons_of_ne_nil text
      have other : b ≠ slash := by simpa [isAbsolute] using absolute
      -- The text starts with its first piece, and so does whatever is put together from its pieces.
      obtain ⟨first, more, split, startsSo⟩ : ∃ first more, pieces (b :: rest) = first :: more ∧
          first.head? = some b := by
        cases tail : pieces rest with
        | nil => exact absurd tail (pieces_ne_nil rest)
        | cons second more => exact ⟨b :: second, more, by simp [pieces, other, tail], rfl⟩
      have front : l.reverse <+: first :: more := by
        simpa [body, absolute, split] using List.reverse_prefix.2 start
      obtain ⟨x, others, turned⟩ :=
        List.exists_cons_of_ne_nil (l := l.reverse) (by simpa using some_)
      rw [turned, List.cons_prefix_cons] at front
      obtain ⟨rfl, _⟩ := front
      have head : (glue l.reverse).head? = some b := by
        rw [turned]
        cases others <;> simp [glue, startsSo]
      simpa [ofBody, isAbsolute, head] using other

/-- The first of the texts from a text upwards is the text itself. -/
theorem ancestors_eq_cons (some_ : p ≠ []) : ∃ above, ancestors p = p :: above := by
  unfold ancestors
  rw [if_neg some_]
  split <;> exact ⟨_, rfl⟩

/-- The text itself and those above it are read from the same directory, and ask for the first
of its steps. -/
theorem segments_of_mem_ancestors (h : q ∈ ancestors p) :
    segments q <+: segments p ∧ isAbsolute q = isAbsolute p := by
  unfold ancestors at h
  split at h
  · simp at h
  · rename_i text
    split at h
    · obtain rfl : q = p := by simpa using h
      exact ⟨List.prefix_refl _, rfl⟩
    · rename_i longest above split
      rcases List.mem_append.1 h with near | top
      · rcases List.mem_cons.1 near with rfl | near
        · exact ⟨List.prefix_refl _, rfl⟩
        · obtain ⟨l, there, rfl⟩ := List.mem_map.1 near
          have start : l ≠ [] ∧ l <:+ body p :=
            suffix_of_mem_beginnings (by rw [split]; exact List.mem_cons_of_mem _ there)
          exact ⟨segments_ofBody start.1 start.2, isAbsolute_ofBody start.1 text start.2⟩
      · -- The root stands above every absolute text.
        split at top
        · rename_i absolute
          obtain rfl : q = [slash] := by simpa using top
          have none_ : segments [slash] = [] := by decide
          exact ⟨by simp [none_], by rw [absolute]; rfl⟩
        · simp at top

theorem segments_of_parent? (h : parent? p = some q) :
    q = [] ∨ segments q <+: segments p ∧ isAbsolute q = isAbsolute p := by
  have text : p ≠ [] := by
    rintro rfl
    simp [parent?, isAbsolute, body, pieces, beginnings, silent] at h
  unfold parent? at h
  split at h
  · simp at h
  · rename_i longest above split
    cases above with
    | nil =>
        obtain rfl : ofBody (isAbsolute p) [] = q := by simpa using h
        cases absolute : isAbsolute p with
        | true => exact .inr ⟨by simp [ofBody, glue, show segments [slash] = [] by decide], rfl⟩
        | false => exact .inl rfl
    | cons next more =>
        obtain rfl : ofBody (isAbsolute p) next = q := by simpa using h
        have start : next ≠ [] ∧ next <:+ body p :=
          suffix_of_mem_beginnings (by rw [split]; simp)
        exact .inr ⟨segments_ofBody start.1 start.2, isAbsolute_ofBody start.1 text start.2⟩

/-- What stands above the text of the directory above stands above the text. -/
theorem segments_of_mem_ancestors_parent? {r : Path} (h : parent? p = some q)
    (hr : r ∈ ancestors q) : segments r <+: segments p ∧ isAbsolute r = isAbsolute p := by
  rcases segments_of_parent? h with rfl | ⟨steps, same⟩
  · simp [ancestors] at hr
  · obtain ⟨steps', same'⟩ := segments_of_mem_ancestors hr
    exact ⟨steps'.trans steps, same'.trans same⟩

end Path
end ClassPack
