/-!
# Utf8 — bytes and the text they spell

File names, file contents and whatever a child program prints are bytes; path texts and messages are
strings. This file passes between the two:

* `Utf8.encode` and `Utf8.decode?`, inverse to each other (`decode?_encode`, `encode_of_decode?`);
* `Utf8.lossy`, the text shown for bytes that need not be valid: each maximal run of bytes that
  starts a character and breaks off becomes one U+FFFD.
-/

namespace ClassPack

/-- Raw bytes. -/
abbrev Bytes := List UInt8

namespace Utf8

/-! ## Encoding and strict decoding -/

/-- The bytes that spell a string. -/
def encode (s : String) : Bytes := s.toByteArray.data.toList

/-- The string that the bytes spell, if they spell one. -/
def decode? (b : Bytes) : Option String := String.fromUTF8? ⟨b.toArray⟩

@[simp] theorem encode_append (s t : String) : encode (s ++ t) = encode s ++ encode t := by
  simp [encode]

@[simp] theorem encode_empty : encode "" = [] := rfl

theorem encode_injective {s t : String} (h : encode s = encode t) : s = t := by
  apply String.toByteArray_inj.1
  exact ByteArray.ext (Array.toList_inj.1 h)

@[simp] theorem decode?_encode (s : String) : decode? (encode s) = some s := by
  have valid : (⟨(encode s).toArray⟩ : ByteArray).IsValidUTF8 := by
    simpa [encode] using s.isValidUTF8
  simp only [decode?, String.fromUTF8?, valid, dite_true, Option.some.injEq]
  exact String.toByteArray_inj.1 (by simp [String.fromUTF8, encode])

theorem encode_of_decode? {b : Bytes} {s : String} (h : decode? b = some s) : encode s = b := by
  simp only [decode?, String.fromUTF8?] at h
  split at h
  · cases h
    simp [encode, String.fromUTF8]
  · exact absurd h (by simp)

/-! ## Lossy decoding -/

/-- What may follow a first byte above 0x7F: how many bytes, and the least and greatest value of the
first of them. A byte that starts no character has none. -/
def shape (b : UInt8) : Nat × UInt8 × UInt8 :=
  if b < 0xC2 then (0, 0, 0)
  else if b < 0xE0 then (1, 0x80, 0xBF)
  else if b = 0xE0 then (2, 0xA0, 0xBF)
  else if b = 0xED then (2, 0x80, 0x9F)
  else if b < 0xF0 then (2, 0x80, 0xBF)
  else if b = 0xF0 then (3, 0x90, 0xBF)
  else if b < 0xF4 then (3, 0x80, 0xBF)
  else if b = 0xF4 then (3, 0x80, 0x8F)
  else (0, 0, 0)

/-- How many of the next bytes, at most `n`, continue a character. -/
def fitting : Nat → UInt8 → UInt8 → Bytes → Nat
  | n + 1, lo, hi, c :: rest => if lo ≤ c ∧ c ≤ hi then fitting n 0x80 0xBF rest + 1 else 0
  | _, _, _, _ => 0

/-- The code point of a first byte and the bytes that continue it. -/
def codePoint (b : UInt8) (more : Bytes) : Nat :=
  let lead :=
    if more.length = 1 then b.toNat % 32 else if more.length = 2 then b.toNat % 16 else b.toNat % 8
  more.foldl (fun n c => n * 64 + c.toNat % 64) lead

/-- The characters shown for bytes. -/
def lossyChars : Bytes → List Char
  | [] => []
  | b :: rest =>
      if b < 0x80 then Char.ofNat b.toNat :: lossyChars rest
      else
        let (n, lo, hi) := shape b
        let k := fitting n lo hi rest
        let c := if n ≠ 0 ∧ k = n then Char.ofNat (codePoint b (rest.take n)) else '\uFFFD'
        c :: lossyChars (rest.drop k)
termination_by b => b.length
decreasing_by all_goals simp; try omega

/-- The text shown for bytes that need not be valid. -/
def lossy (b : Bytes) : String := String.ofList (lossyChars b)

end Utf8
end ClassPack
