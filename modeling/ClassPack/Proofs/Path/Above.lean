import ClassPack.Proofs.Path.Segments

/-!
# Above — the text of the directory above

A text without zero bytes that asks for anything but dots has a text above it (`Path.exists_upper`).
That text asks for the same steps up to the last one that is not a dot, but for dots before it, and
ends in a dot only if it is nothing else; the texts above the first one are it and those above it
(`Path.Upper`). It is no longer (`Path.length_le_of_parent?`).
-/

namespace ClassPack
namespace Path

variable {p q : Path} {absolute : Bool} {piece : Bytes} {before l m : List Bytes}
  {rest : List (List Bytes)}

/-- The steps that pieces ask for which are given last first. -/
def asked (l : List Bytes) : List Segment := l.reverse.filterMap Segment.ofPiece?

theorem asked_cons (piece : Bytes) (before : List Bytes) :
    asked (piece :: before) = asked before ++ (Segment.ofPiece? piece).toList := by
  cases counts : Segment.ofPiece? piece <;> simp [asked, counts]

/-- What counts for nothing asks for a dot at most. -/
theorem ofPiece?_of_silent (h : silent absolute piece before = true) :
    ∃ k, (Segment.ofPiece? piece).toList = List.replicate k .here := by
  unfold silent at h
  rcases Bool.or_eq_true_iff.1 h with empty | single
  · obtain rfl : piece = [] := by simpa using empty
    exact ⟨0, rfl⟩
  · obtain ⟨single, _⟩ : piece = [dot] ∧ _ := by simpa using single
    exact ⟨1, by rw [single]; rfl⟩

/-- What counts asks for a step, and for a dot only at the front of a relative text. -/
theorem ofPiece?_of_not_silent (h : silent absolute piece before = false) (plain : slash ∉ piece)
    (noZero : 0 ∉ piece) : ∃ step, Segment.ofPiece? piece = some step ∧
    (step = .here → before = []) := by
  unfold silent at h
  rw [Bool.or_eq_false_iff] at h
  have some_ : piece ≠ [] := by simpa using h.1
  unfold Segment.ofPiece?
  split
  · rename_i single
    refine ⟨_, rfl, fun _ => ?_⟩
    have := h.2
    rw [single] at this
    simp only [beq_self_eq_true, Bool.true_and, Bool.or_eq_false_iff] at this
    simpa using this.2
  · rename_i notHere
    split
    · exact ⟨_, rfl, by simp⟩
    · rename_i notUp
      have valid : Name.Valid piece := ⟨some_, notHere, notUp, plain, noZero⟩
      exact ⟨.name ⟨piece, valid⟩, by simp [Name.ofBytes?, valid], by simp⟩

/-- The first of the beginnings leaves out what counts for nothing, and the others are its own. -/
theorem beginnings_cases (absolute : Bool) (l : List Bytes) :
    (beginnings absolute l = [] ∧ ∃ k, asked l = List.replicate k .here) ∨
      ∃ piece before k, beginnings absolute l = (piece :: before) :: beginnings absolute before ∧
        silent absolute piece before = false ∧
        asked l = asked (piece :: before) ++ List.replicate k .here := by
  induction l with
  | nil => exact .inl ⟨rfl, 0, rfl⟩
  | cons piece before ih =>
      cases quiet : silent absolute piece before with
      | true =>
          obtain ⟨j, dots⟩ := ofPiece?_of_silent quiet
          have skipped : beginnings absolute (piece :: before) = beginnings absolute before := by
            rw [beginnings, if_pos quiet]
          rw [skipped, asked_cons, dots]
          rcases ih with ⟨none_, k, all⟩ | ⟨piece', before', k, split, counts, all⟩
          · exact .inl ⟨none_, k + j, by rw [all, List.replicate_append_replicate]⟩
          · exact .inr ⟨piece', before', k + j, split, counts, by
              rw [all, List.append_assoc, List.replicate_append_replicate]⟩
      | false =>
          exact .inr ⟨piece, before, 0, by rw [beginnings, if_neg (by simp [quiet])],
            quiet, by simp⟩

theorem segments_eq_asked (p : Path) : segments p = asked (body p) := segments_eq_filterMap_body p

theorem asked_ofBody (some_ : l ≠ []) (start : l <:+ body p) :
    segments (ofBody (isAbsolute p) l) = asked l := by
  have plain : ∀ piece ∈ l.reverse, slash ∉ piece := fun piece there =>
    slash_not_mem_of_mem_body (start.subset (List.mem_reverse.1 there))
  have read : segments (glue l.reverse) = asked l := by
    rw [segments, pieces_glue (by simpa using some_) plain, asked]
  unfold ofBody
  split
  · simpa [read] using segments_append_slash [] (glue l.reverse)
  · exact read

theorem segments_ofBody_nil (absolute : Bool) : segments (ofBody absolute []) = [] := by
  cases absolute <;> decide

/-- What a text is put together from is its body. -/
theorem body_ofBody (some_ : l ≠ []) (text : p ≠ []) (start : l <:+ body p) :
    body (ofBody (isAbsolute p) l) = l := by
  have plain : ∀ piece ∈ l.reverse, slash ∉ piece := fun piece there =>
    slash_not_mem_of_mem_body (start.subset (List.mem_reverse.1 there))
  have read := pieces_glue (l := l.reverse) (by simpa using some_) plain
  have same := isAbsolute_ofBody some_ text start
  unfold body
  rw [same]
  unfold ofBody
  cases isAbsolute p with
  | true => simp [pieces, read]
  | false => simp [read]

theorem zero_not_mem_of_body (noZero : 0 ∉ p) (there : piece ∈ body p) : 0 ∉ piece := by
  have member : piece ∈ pieces p := by
    unfold body at there
    split at there
    · exact List.drop_subset 1 _ (List.mem_reverse.1 there)
    · exact List.mem_reverse.1 there
  exact fun zero => noZero (mem_of_mem_pieces member zero)

theorem zero_not_mem_glue {l : List Bytes} (h : ∀ piece ∈ l, 0 ∉ piece) : 0 ∉ glue l := by
  induction l with
  | nil => simp [glue]
  | cons piece more ih =>
      obtain ⟨here, later⟩ := List.forall_mem_cons.1 h
      cases more with
      | nil => simpa [glue] using here
      | cons second more =>
          have rest := ih later
          simp [glue, here, rest, slash]

/-! ## The text above -/

/-- The text put together from the pieces before a component that counts, given last first. -/
def upperText (absolute : Bool) (before : List Bytes) : Path :=
  ofBody absolute ((beginnings absolute before).head?.getD [])

section UpperText

variable (start : before <:+ body p)

include start

theorem plain_of_start (there : piece ∈ before) (noZero : 0 ∉ p) : slash ∉ piece ∧ 0 ∉ piece :=
  ⟨slash_not_mem_of_mem_body (start.subset there), zero_not_mem_of_body noZero (start.subset there)⟩

/-- Only dots are left out, and at the end only the front of a relative text can be a dot. -/
theorem segments_upperText (noZero : 0 ∉ p) :
    (∃ k, asked before = segments (upperText (isAbsolute p) before) ++ List.replicate k .here) ∧
      ∀ t, segments (upperText (isAbsolute p) before) = t ++ [.here] → t = [] := by
  unfold upperText
  rcases beginnings_cases (isAbsolute p) before with ⟨none_, k, dots⟩ |
    ⟨piece, rest, k, split, counts, dots⟩
  · simp [none_, segments_ofBody_nil, dots]
  · have start' : (piece :: rest) <:+ body p :=
      (suffix_of_mem_beginnings (by rw [split]; exact List.mem_cons_self ..)).2.trans start
    obtain ⟨plain, zero⟩ := plain_of_start start' (List.mem_cons_self ..) noZero
    obtain ⟨step, asks, front⟩ := ofPiece?_of_not_silent counts plain zero
    rw [split, List.head?_cons, Option.getD_some, asked_ofBody (by simp) start']
    refine ⟨⟨k, dots⟩, fun t last => ?_⟩
    rw [asked_cons, asks] at last
    obtain ⟨rfl, final⟩ := List.append_inj' last rfl
    obtain rfl : step = .here := by simpa using final
    rw [front rfl]
    rfl

theorem zero_not_mem_upperText (noZero : 0 ∉ p) : 0 ∉ upperText (isAbsolute p) before := by
  have glued : ∀ l, l <:+ body p → 0 ∉ ofBody (isAbsolute p) l := fun l start' => by
    have fit : 0 ∉ glue l.reverse := zero_not_mem_glue fun piece there =>
      (plain_of_start start' (List.mem_reverse.1 there) noZero).2
    unfold ofBody
    split
    · simpa [slash] using fit
    · exact fit
  unfold upperText
  rcases beginnings_cases (isAbsolute p) before with ⟨none_, _⟩ | ⟨piece, rest, _, split, _⟩
  · exact glued _ (by simp [none_])
  · refine glued _ ?_
    rw [split]
    exact (suffix_of_mem_beginnings (by rw [split]; exact List.mem_cons_self ..)).2.trans start

theorem ancestors_upperText (text : p ≠ []) (noZero : 0 ∉ p) :
    ancestors (upperText (isAbsolute p) before) =
      (beginnings (isAbsolute p) before).map (ofBody (isAbsolute p)) ++
        if isAbsolute p then [[slash]] else [] := by
  unfold upperText
  rcases beginnings_cases (isAbsolute p) before with ⟨none_, _⟩ | ⟨piece, rest, _, split, counts, _⟩
  · -- Above are only the root or the empty text.
    have root : ancestors [slash] = [[slash]] := by decide
    rw [none_]
    cases isAbsolute p with
    | true => simp [ofBody, glue, root]
    | false => simp [ofBody, glue, ancestors]
  · have start' : (piece :: rest) <:+ body p :=
      (suffix_of_mem_beginnings (by rw [split]; exact List.mem_cons_self ..)).2.trans start
    obtain ⟨plain, zero⟩ := plain_of_start start' (List.mem_cons_self ..) noZero
    obtain ⟨step, asks, _⟩ := ofPiece?_of_not_silent counts plain zero
    have some_ : ofBody (isAbsolute p) (piece :: rest) ≠ [] := by
      intro none_
      have read := asked_ofBody (by simp) start'
      rw [none_, segments_nil, asked_cons, asks] at read
      simp at read
    have own : beginnings (isAbsolute p) (piece :: rest) =
        (piece :: rest) :: beginnings (isAbsolute p) rest := by
      rw [beginnings, if_neg (by simp [counts])]
    rw [split, List.head?_cons, Option.getD_some, ancestors, if_neg some_,
      isAbsolute_ofBody (by simp) text start', body_ofBody (by simp) text start', own]
    rfl

end UpperText

/-- The text `q` of the directory above `p`: the last step that is not a dot is left out. -/
structure Upper (p q : Path) : Prop where
  parent : parent? p = some q
  steps : ∃ k step j, step ≠ .here ∧
    segments p = segments q ++ List.replicate k .here ++ step :: List.replicate j .here
  /-- A final dot is the whole text. -/
  final : ∀ t, segments q = t ++ [.here] → t = []
  noZero : 0 ∉ q
  ancestors : ancestors p = p :: ancestors q

/-- The text above is read from where the text is, unless it is empty. -/
theorem Upper.origin_eq (above : Upper p q) (some_ : q ≠ []) (dir : Place) :
    origin q dir = origin p dir := by
  rcases segments_of_parent? above.parent with none_ | ⟨_, absolute⟩
  · exact absurd none_ some_
  · simp [origin, absolute]

theorem Upper.shorter (above : Upper p q) : (segments q).length < (segments p).length := by
  obtain ⟨k, step, j, _, steps⟩ := above.steps
  simp only [steps, List.length_append, List.length_cons]
  omega

/-- Above a text that ends in a name only the name is left out, and dots before it. -/
theorem Upper.steps_of_name {s : List Segment} {n : Name} (above : Upper p q)
    (ends : segments p = s ++ [.name n]) : ∃ k, s = segments q ++ List.replicate k .here := by
  obtain ⟨k, step, j, _, steps⟩ := above.steps
  cases j with
  | zero => exact ⟨k, (List.append_inj' (ends.symm.trans steps) rfl).1⟩
  | succ j =>
      rw [List.replicate_succ', ← List.cons_append, ← List.append_assoc, ends] at steps
      simpa using (List.append_inj' steps rfl).2

/-- A text that asks for anything but dots has a text above. -/
theorem exists_upper {step : Segment} (noZero : 0 ∉ p) (there : step ∈ segments p)
    (other : step ≠ .here) : ∃ q, Upper p q := by
  have text : p ≠ [] := by
    rintro rfl
    simp at there
  rw [segments_eq_asked] at there
  rcases beginnings_cases (isAbsolute p) (body p) with ⟨_, k, dots⟩ |
    ⟨piece, before, j, split, counts, dots⟩
  · rw [dots] at there
    exact absurd (List.eq_of_mem_replicate there) other
  have start : (piece :: before) <:+ body p := (suffix_of_mem_beginnings (by rw [split]; simp)).2
  have start' : before <:+ body p := (List.suffix_cons ..).trans start
  obtain ⟨plain, zero⟩ := plain_of_start start (List.mem_cons_self ..) noZero
  obtain ⟨last, asks, front⟩ := ofPiece?_of_not_silent counts plain zero
  obtain ⟨⟨k, above⟩, final⟩ := segments_upperText start' noZero
  have steps : segments p = asked before ++ last :: List.replicate j .here := by
    rw [segments_eq_asked, dots, asked_cons, asks]
    simp
  refine ⟨upperText (isAbsolute p) before, ?_, ⟨k, last, j, ?_, by rw [steps, above]⟩, final,
    zero_not_mem_upperText start' noZero, ?_⟩
  · unfold parent? upperText
    rw [split]
    cases beginnings (isAbsolute p) before <;> rfl
  · -- A dot that counts would be the first step, and all others would be dots.
    rintro rfl
    rw [front rfl] at steps
    have all : ∀ s ∈ segments p, s = .here := fun s member => by
      rw [steps, show asked [] = [] from rfl] at member
      rcases List.mem_cons.1 member with here | more
      · exact here
      · exact List.eq_of_mem_replicate more
    exact other (all step (by rwa [segments_eq_asked]))
  · rw [ancestors, if_neg text, split, ancestors_upperText start' text noZero]
    rfl

/-! ## Its length -/

theorem length_glue_le_of_prefix (start : l <+: m) : (glue l).length ≤ (glue m).length := by
  induction l generalizing m with
  | nil => simp [glue]
  | cons piece l ih =>
      cases m with
      | nil => simp at start
      | cons piece' m =>
          obtain ⟨rfl, onward⟩ := List.cons_prefix_cons.1 start
          cases l with
          | nil => cases m <;> simp [glue]
          | cons second l =>
              cases m with
              | nil => simp at onward
              | cons second' m => simpa [glue] using ih onward

theorem length_ofBody_le (start : l <:+ body p) : (ofBody (isAbsolute p) l).length ≤ p.length := by
  have front := length_glue_le_of_prefix (List.reverse_prefix.2 start)
  unfold ofBody
  cases absolute : isAbsolute p with
  | false => simpa [body, absolute, glue_pieces] using front
  | true =>
      cases p with
      | nil => simp [isAbsolute] at absolute
      | cons b rest =>
          obtain rfl : b = slash := by simpa [isAbsolute] using absolute
          have whole : (glue (body (slash :: rest)).reverse).length = rest.length := by
            simp [body, absolute, pieces, glue_pieces]
          simp only [if_true, List.length_cons]
          omega

/-- The text above is no longer. -/
theorem length_le_of_parent? (h : parent? p = some q) : q.length ≤ p.length := by
  unfold parent? at h
  split at h
  · cases h
  · rename_i longest above split
    cases above with
    | nil =>
        obtain rfl : ofBody (isAbsolute p) [] = q := by simpa using h
        exact length_ofBody_le List.nil_suffix
    | cons next more =>
        obtain rfl : ofBody (isAbsolute p) next = q := by simpa using h
        exact length_ofBody_le (suffix_of_mem_beginnings (by rw [split]; simp)).2

end Path
end ClassPack
