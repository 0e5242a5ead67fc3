import ClassPack.Proofs.Text.Stopping
import ClassPack.Text.Blank
import ClassPack.Text.Utf8

/-!
# Showing — what bytes show, and what they say

Bytes that spell no text are shown all the same. What they show is said here by the bytes of
characters alone, without the ranges that a decoder goes by:

* `Utf8.Shows bytes shown` — characters are shown for their bytes, and one U+FFFD for each part at
  which bytes break off; a part is as much as a character can start with (`Utf8.BreaksOff`).
  `Utf8.shows_iff`: it is what `Utf8.lossyChars` gives, and nothing else;
* `Blank.Trimmed cs core` — the white space at both ends is gone, and `Blank.trimmed_iff`;
* `Utf8.Speaks bytes words` — both together: what is shown, without white space around it.
-/

namespace ClassPack
namespace Utf8

variable {b lo hi : UInt8} {n : Nat} {more : Bytes}

/-! ## Bytes that fit a first byte -/

/-- Bytes that may follow a first byte: at most `n`, the first of them between the bounds. -/
def Fits : Nat → UInt8 → UInt8 → Bytes → Prop
  | _, _, _, [] => True
  | 0, _, _, _ :: _ => False
  | n + 1, lo, hi, c :: rest => (lo ≤ c ∧ c ≤ hi) ∧ Fits n 0x80 0xBF rest

@[simp] theorem fits_nil : Fits n lo hi [] := by
  simp [Fits]

theorem Fits.of_prefix {all : Bytes} (h : Fits n lo hi all) (start : more <+: all) :
    Fits n lo hi more := by
  induction more generalizing n lo hi all with
  | nil => exact fits_nil
  | cons c more ih =>
      obtain ⟨after, rfl⟩ := start
      cases n with
      | zero => exact h.elim
      | succ n => exact ⟨h.1, ih h.2 (List.prefix_append ..)⟩

theorem length_le_of_fits (h : Fits n lo hi more) : more.length ≤ n := by
  induction more generalizing n lo hi with
  | nil => exact Nat.zero_le n
  | cons c rest ih =>
      cases n with
      | zero => exact h.elim
      | succ n => exact Nat.succ_le_succ (ih h.2)

/-- The bytes that are counted fit. -/
theorem fits_take_fitting (n : Nat) (lo hi : UInt8) (rest : Bytes) :
    Fits n lo hi (rest.take (fitting n lo hi rest)) := by
  fun_induction fitting n lo hi rest with
  | case1 n lo hi c rest bounds ih => exact ⟨bounds, ih⟩
  | case2 n lo hi c rest _ => exact fits_nil
  | case3 n lo hi rest _ => exact fits_nil

/-- No more bytes fit than are counted. -/
theorem length_le_fitting {rest : Bytes} (start : more <+: rest) (h : Fits n lo hi more) :
    more.length ≤ fitting n lo hi rest := by
  induction more generalizing n lo hi rest with
  | nil => exact Nat.zero_le _
  | cons c more ih =>
      obtain ⟨after, rfl⟩ := start
      cases n with
      | zero => exact h.elim
      | succ n =>
          rw [List.cons_append, fitting, if_pos h.1]
          exact Nat.succ_le_succ (ih (List.prefix_append ..) h.2)

theorem fitting_le (n : Nat) (lo hi : UInt8) (rest : Bytes) :
    fitting n lo hi rest ≤ n ∧ fitting n lo hi rest ≤ rest.length := by
  fun_induction fitting n lo hi rest with
  | case1 n lo hi c rest bounds ih => simpa using ih
  | case2 n lo hi c rest _ => simp
  | case3 n lo hi rest _ => simp

/-- Bytes that fit can be completed. -/
theorem exists_fits_append (bounds : lo ≤ hi) (h : Fits n lo hi more) :
    ∃ tail, Fits n lo hi (more ++ tail) ∧ (more ++ tail).length = n := by
  induction n generalizing lo hi more with
  | zero => exact ⟨[], by simpa using h, by simpa using length_le_of_fits h⟩
  | succ n ih =>
      cases more with
      | nil =>
          have bounds' : (0x80 : UInt8) ≤ 0xBF := by decide
          obtain ⟨tail, fits, length⟩ := ih bounds' fits_nil
          exact ⟨lo :: tail, ⟨⟨UInt8.le_refl lo, bounds⟩, fits⟩, by simpa using length⟩
      | cons c more =>
          obtain ⟨tail, fits, length⟩ := ih (by decide) h.2
          exact ⟨tail, ⟨h.1, fits⟩, by simpa using length⟩

/-! ## Bytes of characters -/

/-- What may follow a first byte, told in numbers. -/
theorem shape_spec (h : shape b = (n, lo, hi)) :
    (n = 0 ∧ (b.toNat < 0xC2 ∨ 0xF4 < b.toNat)) ∨ lo.toNat ≤ hi.toNat ∧
      ((n = 1 ∧ lo.toNat = 0x80 ∧ hi.toNat = 0xBF ∧ 0xC2 ≤ b.toNat ∧ b.toNat ≤ 0xDF) ∨
        (n = 2 ∧ lo.toNat = 0xA0 ∧ hi.toNat = 0xBF ∧ b.toNat = 0xE0) ∨
        (n = 2 ∧ lo.toNat = 0x80 ∧ hi.toNat = 0x9F ∧ b.toNat = 0xED) ∨
        (n = 2 ∧ lo.toNat = 0x80 ∧ hi.toNat = 0xBF ∧ 0xE1 ≤ b.toNat ∧ b.toNat ≤ 0xEF ∧
          b.toNat ≠ 0xED) ∨
        (n = 3 ∧ lo.toNat = 0x90 ∧ hi.toNat = 0xBF ∧ b.toNat = 0xF0) ∨
        (n = 3 ∧ lo.toNat = 0x80 ∧ hi.toNat = 0xBF ∧ 0xF1 ≤ b.toNat ∧ b.toNat ≤ 0xF3) ∨
        (n = 3 ∧ lo.toNat = 0x80 ∧ hi.toNat = 0x8F ∧ b.toNat = 0xF4)) := by
  simp only [shape, UInt8.lt_iff_toNat_lt, ← UInt8.toNat_inj] at h
  repeat' split at h
  all_goals
    cases h
    simp_all
    try omega

theorem le_of_shape (h : shape b = (n, lo, hi)) (some_ : n ≠ 0) : lo ≤ hi := by
  have bounds := shape_spec h
  rw [UInt8.le_iff_toNat_le]
  omega

/-- The number of a character that is made from its number. -/
theorem toNat_ofNat_of_valid {v : Nat} (valid : v.isValidChar) : (Char.ofNat v).val.toNat = v := by
  rw [Char.ofNat, dif_pos valid]
  rfl

theorem ofNat_eq_of_toNat {v : Nat} (h : v = b.toNat) : UInt8.ofNat v = b := by
  rw [h, UInt8.ofNat_toNat]

/-- Bytes that fit completely are those of the character with their code point. -/
theorem encodes_of_fits (h : shape b = (n, lo, hi)) (some_ : n ≠ 0) (fits : Fits n lo hi more)
    (length : more.length = n) :
    String.utf8EncodeChar (Char.ofNat (codePoint b more)) = b :: more := by
  have bounds := shape_spec h
  obtain ⟨v, code⟩ : ∃ v, codePoint b more = v := ⟨_, rfl⟩
  rw [code, String.utf8EncodeChar]
  match more, length with
  | [], length => exact absurd length.symm some_
  | [c], rfl =>
      simp [Fits, UInt8.le_iff_toNat_le] at fits bounds
      have value : v = b.toNat % 32 * 64 + c.toNat % 64 := by simp [← code, codePoint]
      have valid : v.isValidChar := by simp only [Nat.isValidChar]; omega
      rw [toNat_ofNat_of_valid valid, if_neg (by omega), if_pos (by omega),
        ofNat_eq_of_toNat (b := b) (by omega), ofNat_eq_of_toNat (b := c) (by omega)]
  | [c, d], rfl =>
      simp [Fits, UInt8.le_iff_toNat_le] at fits bounds
      have value : v = (b.toNat % 16 * 64 + c.toNat % 64) * 64 + d.toNat % 64 := by
        simp [← code, codePoint]
      have valid : v.isValidChar := by simp only [Nat.isValidChar]; omega
      rw [toNat_ofNat_of_valid valid, if_neg (by omega), if_neg (by omega), if_pos (by omega),
        ofNat_eq_of_toNat (b := b) (by omega), ofNat_eq_of_toNat (b := c) (by omega),
        ofNat_eq_of_toNat (b := d) (by omega)]
  | [c, d, e], rfl =>
      simp [Fits, UInt8.le_iff_toNat_le] at fits bounds
      have value : v = ((b.toNat % 8 * 64 + c.toNat % 64) * 64 + d.toNat % 64) * 64 +
          e.toNat % 64 := by
        simp [← code, codePoint]
      have valid : v.isValidChar := by simp only [Nat.isValidChar]; omega
      rw [toNat_ofNat_of_valid valid, if_neg (by omega), if_neg (by omega), if_neg (by omega),
        ofNat_eq_of_toNat (b := b) (by omega), ofNat_eq_of_toNat (b := c) (by omega),
        ofNat_eq_of_toNat (b := d) (by omega), ofNat_eq_of_toNat (b := e) (by omega)]
  | _ :: _ :: _ :: _ :: _, length =>
      simp at length
      omega

/-- The bytes of a character fit its first byte completely. -/
theorem fits_of_encodes {c : Char} (h : String.utf8EncodeChar c = b :: more) (high : 0x80 ≤ b)
    (shaped : shape b = (n, lo, hi)) :
    n ≠ 0 ∧ more.length = n ∧ Fits n lo hi more ∧ Char.ofNat (codePoint b more) = c := by
  have bounds := shape_spec shaped
  have valid : c.val.toNat < 0xD800 ∨ 0xDFFF < c.val.toNat ∧ c.val.toNat < 0x110000 := c.valid
  obtain ⟨v, number⟩ : ∃ v, c.val.toNat = v := ⟨_, rfl⟩
  have back : Char.ofNat v = c := number ▸ c.ofNat_toNat
  rw [String.utf8EncodeChar, number] at h
  rw [number] at valid
  rw [UInt8.le_iff_toNat_le] at high
  have length : n = more.length := by
    repeat' split at h
    all_goals
      cases h
      simp at bounds high ⊢
      omega
  subst length
  rw [← back]
  repeat' split at h
  · cases h
    simp at high
    omega
  all_goals
    cases h
    simp [Fits, UInt8.le_iff_toNat_le, codePoint] at bounds ⊢
    exact ⟨by omega, congrArg Char.ofNat (by omega)⟩

/-! ## What is shown -/

/-- The bytes of some character start like this. -/
def Begins (part : Bytes) : Prop := ∃ c, part <+: String.utf8EncodeChar c

/-- A part at which bytes break off: they do not start with a whole character, and the part is as
much of them as a character can start with, but at least one byte. -/
structure BreaksOff (part rest : Bytes) : Prop where
  noChar : ∀ c, ¬ String.utf8EncodeChar c <+: part ++ rest
  begins : part.length = 1 ∨ part ≠ [] ∧ Begins part
  longest : ∀ more, more <+: part ++ rest → Begins more → more.length ≤ part.length

/-- The characters shown for bytes: characters for their bytes, and one U+FFFD for each part at
which they break off. -/
inductive Shows : Bytes → List Char → Prop where
  | nothing : Shows [] []
  | char (c : Char) {rest : Bytes} {shown : List Char} :
      Shows rest shown → Shows (String.utf8EncodeChar c ++ rest) (c :: shown)
  | brokenOff {part rest : Bytes} {shown : List Char} :
      BreaksOff part rest → Shows rest shown → Shows (part ++ rest) ('\uFFFD' :: shown)

theorem encodes_of_low (low : b < 0x80) : String.utf8EncodeChar (Char.ofNat b.toNat) = [b] := by
  replace low : b.toNat < 128 := UInt8.lt_iff_toNat_lt.1 low
  have valid : b.toNat.isValidChar := .inl (by omega)
  rw [String.utf8EncodeChar, toNat_ofNat_of_valid valid, if_pos (Nat.le_of_lt_succ low),
    UInt8.ofNat_toNat]

theorem of_encodes_low {c : Char} (h : String.utf8EncodeChar c = b :: more) (low : b < 0x80) :
    more = [] ∧ Char.ofNat b.toNat = c := by
  rw [UInt8.lt_iff_toNat_lt] at low
  rw [String.utf8EncodeChar] at h
  split at h
  · cases h
    rename_i small
    rw [UInt8.toNat_ofNat', Nat.mod_eq_of_lt (by omega)]
    exact ⟨rfl, c.ofNat_toNat⟩
  · -- All other characters start with a byte above.
    repeat' split at h
    all_goals
      cases h
      simp at low
      omega

/-- Above 0x7F, what characters can start with is what fits the first byte. -/
theorem begins_cons_iff (high : ¬ b < 0x80) (shaped : shape b = (n, lo, hi)) :
    Begins (b :: more) ↔ n ≠ 0 ∧ Fits n lo hi more := by
  rw [UInt8.not_lt] at high
  constructor
  · rintro ⟨c, tail, whole⟩
    obtain ⟨some_, _, fits, _⟩ := fits_of_encodes whole.symm high shaped
    exact ⟨some_, fits.of_prefix (List.prefix_append ..)⟩
  · rintro ⟨some_, fits⟩
    obtain ⟨tail, fits, length⟩ := exists_fits_append (le_of_shape shaped some_) fits
    exact ⟨_, tail, (encodes_of_fits shaped some_ fits length).symm⟩

theorem lossyChars_high {rest : Bytes} (high : ¬ b < 0x80) (shaped : shape b = (n, lo, hi)) :
    lossyChars (b :: rest) =
      (if n ≠ 0 ∧ fitting n lo hi rest = n then Char.ofNat (codePoint b (rest.take n)) else
        '\uFFFD') :: lossyChars (rest.drop (fitting n lo hi rest)) := by
  rw [lossyChars, if_neg high]
  simp only [shaped]

theorem lossyChars_char (c : Char) (rest : Bytes) :
    lossyChars (String.utf8EncodeChar c ++ rest) = c :: lossyChars rest := by
  obtain ⟨b, more, whole⟩ := List.exists_cons_of_ne_nil (String.utf8EncodeChar_ne_nil (c := c))
  rw [whole, List.cons_append]
  by_cases low : b < 0x80
  · obtain ⟨rfl, rfl⟩ := of_encodes_low whole low
    rw [lossyChars, if_pos low]
    rfl
  · obtain ⟨n, lo, hi, shaped⟩ : ∃ n lo hi, shape b = (n, lo, hi) := ⟨_, _, _, rfl⟩
    obtain ⟨some_, rfl, fits, code⟩ := fits_of_encodes whole (UInt8.not_lt.1 low) shaped
    have counted : fitting more.length lo hi (more ++ rest) = more.length :=
      Nat.le_antisymm (fitting_le ..).1 (length_le_fitting (List.prefix_append ..) fits)
    rw [lossyChars_high low shaped, counted, if_pos ⟨some_, rfl⟩, List.take_left,
      List.drop_left, code]

theorem take_fitting (n : Nat) (lo hi : UInt8) (rest : Bytes) :
    (rest.take (fitting n lo hi rest)).length = fitting n lo hi rest :=
  List.length_take_of_le (fitting_le ..).2

/-- Where the bytes that fit do not come to a whole character, they are a part that breaks off. -/
theorem breaksOff_of_fitting {rest : Bytes} (high : ¬ b < 0x80) (shaped : shape b = (n, lo, hi))
    (incomplete : ¬ (n ≠ 0 ∧ fitting n lo hi rest = n)) :
    BreaksOff (b :: rest.take (fitting n lo hi rest)) (rest.drop (fitting n lo hi rest)) := by
  have whole : b :: rest.take (fitting n lo hi rest) ++ rest.drop (fitting n lo hi rest) =
    b :: rest := by simp
  have counted := fitting_le n lo hi rest
  refine ⟨?_, ?_, ?_⟩
  · rintro c start
    rw [whole] at start
    cases bytes : String.utf8EncodeChar c with
    | nil => exact String.utf8EncodeChar_ne_nil bytes
    | cons b' more =>
        rw [bytes, List.cons_prefix_cons] at start
        obtain ⟨rfl, start⟩ := start
        obtain ⟨some_, length, fits, _⟩ := fits_of_encodes bytes (UInt8.not_lt.1 high) shaped
        have := length_le_fitting start fits
        exact incomplete ⟨some_, by omega⟩
  · by_cases none_ : fitting n lo hi rest = 0
    · exact .inl (by simp [none_])
    · exact .inr ⟨by simp, (begins_cons_iff high shaped).2 ⟨by omega, fits_take_fitting ..⟩⟩
  · rintro more start begins
    rw [whole] at start
    cases more with
    | nil => exact Nat.zero_le _
    | cons b' more =>
        obtain ⟨rfl, below⟩ := List.cons_prefix_cons.1 start
        have fits := ((begins_cons_iff high shaped).1 begins).2
        rw [List.length_cons, List.length_cons, take_fitting]
        exact Nat.succ_le_succ (length_le_fitting below fits)

/-- Bytes break off in one way. -/
theorem BreaksOff.unique {part part' rest rest' : Bytes} (h : BreaksOff part rest)
    (h' : BreaksOff part' rest') (same : part ++ rest = part' ++ rest') :
    part = part' ∧ rest = rest' := by
  have short : ∀ {p r p' r' : Bytes}, BreaksOff p r → BreaksOff p' r' → p ++ r = p' ++ r' →
      p.length ≤ p'.length := by
    intro p r p' r' h h' same
    rcases h.begins with one | ⟨_, begins⟩
    · rcases h'.begins with one' | ⟨some_, _⟩
      · exact Nat.le_of_eq (one.trans one'.symm)
      · exact one ▸ List.length_pos_iff.2 some_
    · exact h'.longest p (same ▸ List.prefix_append ..) begins
  exact List.append_inj same (Nat.le_antisymm (short h h' same) (short h' h same.symm))

theorem lossyChars_brokenOff {part rest : Bytes} (h : BreaksOff part rest) :
    lossyChars (part ++ rest) = '\uFFFD' :: lossyChars rest := by
  cases part with
  | nil => simpa using h.begins
  | cons b part =>
      have high : ¬ b < 0x80 := by
        intro low
        exact h.noChar _ ⟨part ++ rest, by rw [encodes_of_low low]; rfl⟩
      obtain ⟨n, lo, hi, shaped⟩ : ∃ n lo hi, shape b = (n, lo, hi) := ⟨_, _, _, rfl⟩
      have incomplete : ¬ (n ≠ 0 ∧ fitting n lo hi (part ++ rest) = n) := by
        rintro ⟨some_, full⟩
        have whole :=
          encodes_of_fits shaped some_ (fits_take_fitting ..) ((take_fitting ..).trans full)
        exact h.noChar _ ⟨(part ++ rest).drop (fitting n lo hi (part ++ rest)), by rw [whole]; simp⟩
      -- There is but one part, so it is the one that is counted.
      have own := (h.unique (breaksOff_of_fitting high shaped incomplete) (by simp)).2
      rw [List.cons_append, lossyChars_high high shaped, if_neg incomplete, ← own]

/-- What is shown for bytes, and nothing else, is their lossy decoding. -/
theorem shows_iff {bytes : Bytes} {shown : List Char} :
    Shows bytes shown ↔ shown = lossyChars bytes := by
  constructor
  · intro h
    induction h with
    | nothing => rw [lossyChars]
    | char c _ ih => rw [ih, lossyChars_char]
    | brokenOff breaks _ ih => rw [ih, lossyChars_brokenOff breaks]
  · rintro rfl
    induction bytes using lossyChars.induct with
    | case1 =>
        rw [lossyChars]
        exact .nothing
    | case2 b rest low ih =>
        rw [lossyChars, if_pos low]
        have char := Shows.char (Char.ofNat b.toNat) ih
        rwa [encodes_of_low low] at char
    | case3 b rest high n lo hi shaped k ih =>
        rw [lossyChars_high high shaped]
        by_cases complete : n ≠ 0 ∧ k = n
        · have full : fitting n lo hi rest = n := complete.2
          have fits := fits_take_fitting n lo hi rest
          have length := take_fitting n lo hi rest
          rw [if_pos complete]
          simp only [k, full] at ih fits length ⊢
          have char := Shows.char (Char.ofNat (codePoint b (rest.take n))) ih
          rw [encodes_of_fits shaped complete.1 fits length] at char
          simpa using char
        · have broken := Shows.brokenOff (breaksOff_of_fitting high shaped complete) ih
          rw [if_neg complete]
          simpa using broken

end Utf8

/-! ## Without white space around -/

namespace Blank

/-- What is left of characters when the white space before and behind is gone. -/
structure Trimmed (cs core : List Char) : Prop where
  around : ∃ before after, cs = before ++ core ++ after ∧ (∀ c ∈ before, isBlankChar c = true) ∧
    ∀ c ∈ after, isBlankChar c = true
  head : ∀ c, core.head? = some c → isBlankChar c = false
  last : ∀ c, core.getLast? = some c → isBlankChar c = false

theorem trimChars_append {before core after : List Char}
    (blank : ∀ c ∈ before, isBlankChar c = true) (blank' : ∀ c ∈ after, isBlankChar c = true)
    (head : ∀ c, core.head? = some c → isBlankChar c = false)
    (last : ∀ c, core.getLast? = some c → isBlankChar c = false) :
    trimChars (before ++ core ++ after) = core := by
  rw [trimChars, List.append_assoc]
  cases core with
  | nil =>
      have all : ∀ c ∈ before ++ after, isBlankChar c = true := fun c there =>
        (List.mem_append.1 there).elim (blank c) (blank' c)
      have nothing : (before ++ after).dropWhile isBlankChar = [] := by
        simpa using dropWhile_append_of_stops all (stops_nil _)
      rw [List.nil_append, nothing]
      rfl
  | cons c core =>
      have behind : ∀ c ∈ after.reverse, isBlankChar c = true := fun c there =>
        blank' c (List.mem_reverse.1 there)
      have front : ∀ d, (c :: core ++ after).head? = some d → isBlankChar d = false := head
      have back : ∀ d, (c :: core).reverse.head? = some d → isBlankChar d = false := by
        rw [List.head?_reverse]
        exact last
      rw [dropWhile_append_of_stops blank front, List.reverse_append,
        dropWhile_append_of_stops behind back, List.reverse_reverse]

/-- Trimming leaves this, and there is nothing else that it could leave. -/
theorem trimmed_iff {cs core : List Char} : Trimmed cs core ↔ core = trimChars cs := by
  constructor
  · rintro ⟨⟨before, after, rfl, blank, blank'⟩, head, last⟩
    exact (trimChars_append blank blank' head last).symm
  · rintro rfl
    refine ⟨⟨cs.takeWhile isBlankChar,
      ((cs.dropWhile isBlankChar).reverse.takeWhile isBlankChar).reverse, ?_, ?_, ?_⟩,
      fun c => not_blank_of_head?_trimChars, fun c => not_blank_of_getLast?_trimChars⟩
    · rw [trimChars, List.append_assoc, ← List.reverse_append, List.takeWhile_append_dropWhile,
        List.reverse_reverse, List.takeWhile_append_dropWhile]
    · intro c there
      exact List.mem_takeWhile_imp there
    · intro c there
      exact List.mem_takeWhile_imp (List.mem_reverse.1 there)

end Blank

namespace Utf8

/-- What bytes say: the characters shown for them, without white space around. -/
def Speaks (bytes : Bytes) (words : List Char) : Prop :=
  ∃ shown, Shows bytes shown ∧ Blank.Trimmed shown words

theorem speaks_iff {bytes : Bytes} {words : List Char} :
    Speaks bytes words ↔ words = Blank.trimChars (lossyChars bytes) := by
  simp [Speaks, shows_iff, Blank.trimmed_iff]

end Utf8
end ClassPack
