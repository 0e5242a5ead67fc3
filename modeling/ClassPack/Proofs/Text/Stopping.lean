import Mathlib.Data.List.TakeWhile

/-!
# Stopping — where a class of characters ends

What is taken off the front as long as it is of a class, and what is left, is known if the rest does
not start with the class: `takeWhile_append_of_stops` and `dropWhile_append_of_stops`.
-/

namespace ClassPack

variable {α : Type} {p : α → Bool} {front rest : List α}

/-- What follows does not start with a member of a class. -/
def Stops (p : α → Bool) (rest : List α) : Prop := ∀ c, rest.head? = some c → p c = false

theorem stops_nil (p : α → Bool) : Stops p [] := by
  rintro c ⟨⟩

theorem stops_cons_iff {c : α} : Stops p (c :: rest) ↔ p c = false := by
  simp [Stops]

theorem takeWhile_append_of_stops (all : ∀ d ∈ front, p d = true) (stops : Stops p rest) :
    (front ++ rest).takeWhile p = front := by
  rw [List.takeWhile_append_of_pos all]
  cases rest with
  | nil => simp
  | cons c rest =>
      rw [List.takeWhile_cons_of_neg (by simp [stops_cons_iff.1 stops]), List.append_nil]

theorem dropWhile_append_of_stops (all : ∀ d ∈ front, p d = true) (stops : Stops p rest) :
    (front ++ rest).dropWhile p = rest := by
  rw [List.dropWhile_append_of_pos all]
  cases rest with
  | nil => rfl
  | cons c rest => rw [List.dropWhile_cons_of_neg (by simp [stops_cons_iff.1 stops])]

end ClassPack
