/-!
# Blank — white space of Unicode and trimming

* `Blank.ranges`, the code points with the property White_Space;
* `trim`, a text without the white space at its two ends (`not_blank_of_head?_trimChars`,
  `not_blank_of_getLast?_trimChars`);
* `isBlank`, whether nothing else is left of it.
-/

namespace ClassPack
namespace Blank

/-- The code points with the Unicode property White_Space, as closed ranges in order. -/
def ranges : List (Nat × Nat) :=
  [(0x09, 0x0D), (0x20, 0x20), (0x85, 0x85), (0xA0, 0xA0), (0x1680, 0x1680), (0x2000, 0x200A),
   (0x2028, 0x2029), (0x202F, 0x202F), (0x205F, 0x205F), (0x3000, 0x3000)]

/-- Whether a character is white space. -/
def isBlankChar (c : Char) : Bool :=
  ranges.any fun (lo, hi) => decide (lo ≤ c.toNat ∧ c.toNat ≤ hi)

/-- A list of characters without the white space at its two ends. -/
def trimChars (cs : List Char) : List Char :=
  ((cs.dropWhile isBlankChar).reverse.dropWhile isBlankChar).reverse

theorem not_blank_of_head?_dropWhile {cs : List Char} {c : Char}
    (h : (cs.dropWhile isBlankChar).head? = some c) : isBlankChar c = false := by
  have stop := List.head?_dropWhile_not isBlankChar cs
  simpa [h] using stop

/-- What is left does not end in white space. -/
theorem not_blank_of_getLast?_trimChars {cs : List Char} {c : Char}
    (h : (trimChars cs).getLast? = some c) : isBlankChar c = false := by
  rw [trimChars, List.getLast?_reverse] at h
  exact not_blank_of_head?_dropWhile h

/-- What is left does not start with white space. -/
theorem not_blank_of_head?_trimChars {cs : List Char} {c : Char}
    (h : (trimChars cs).head? = some c) : isBlankChar c = false := by
  unfold trimChars at h
  cases start : cs.dropWhile isBlankChar with
  | nil => simp [start] at h
  | cons a rest =>
      -- The first character that stays is met last from the other end, and stops that cut too.
      have top : (cs.dropWhile isBlankChar).head? = some a := by simp [start]
      have first : isBlankChar a = false := not_blank_of_head?_dropWhile top
      rw [start, List.reverse_cons, List.dropWhile_append] at h
      have same : a = c := by
        by_cases nothing : rest.reverse.dropWhile isBlankChar = []
        · simpa [nothing, first] using h
        · simpa [nothing] using h
      exact same ▸ first

/-- A text without the white space at its two ends. -/
def trim (s : String) : String := String.ofList (trimChars s.toList)

/-- Whether a text holds nothing but white space. -/
def isBlank (s : String) : Bool := s.toList.all isBlankChar

end Blank
end ClassPack
