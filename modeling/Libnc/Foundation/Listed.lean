import Mathlib.Data.List.Basic
import Mathlib.Data.List.Nodup

/-!
# Null-terminated lists

Chains of nodes in which a link function leads from each node to the next and
from the last to a null value.
-/

namespace Libnc.Foundation

variable {α : Type*} {next next' : α → α} {null p q x : α} {xs ys : List α}

/-- Following `next` from `p` visits `xs` and ends at `null`. -/
def Listed (next : α → α) (null : α) : α → List α → Prop
  | p, [] => p = null
  | p, x :: xs => p = x ∧ x ≠ null ∧ Listed next null (next x) xs

instance decidableListed [DecidableEq α] (next : α → α) (null : α) :
    ∀ p xs, Decidable (Listed next null p xs)
  | p, [] => inferInstanceAs (Decidable (p = null))
  | p, x :: xs =>
      have := decidableListed next null (next x) xs
      inferInstanceAs (Decidable (p = x ∧ x ≠ null ∧ Listed next null (next x) xs))

namespace Listed

theorem ne_null (h : Listed next null p xs) (hx : x ∈ xs) : x ≠ null := by
  induction xs generalizing p with
  | nil => simp at hx
  | cons y xs ih =>
      rcases List.mem_cons.mp hx with rfl | hx
      · exact h.2.1
      · exact ih h.2.2 hx

theorem nil_iff (h : Listed next null p xs) : xs = [] ↔ p = null := by
  cases xs with
  | nil => exact iff_of_true rfl h
  | cons y xs => simp [h.1, h.2.1]

theorem unique (h : Listed next null p xs) (h' : Listed next null p ys) : xs = ys := by
  induction xs generalizing p ys with
  | nil => exact (h'.nil_iff.mpr h).symm
  | cons x xs ih =>
      cases ys with
      | nil => exact h.nil_iff.mpr h'
      | cons y ys =>
          obtain rfl : x = y := h.1.symm.trans h'.1
          rw [ih h.2.2 h'.2.2]

theorem congr (h : Listed next null p xs) (hnext : ∀ x ∈ xs, next' x = next x) :
    Listed next' null p xs := by
  induction xs generalizing p with
  | nil => exact h
  | cons y xs ih =>
      refine ⟨h.1, h.2.1, ?_⟩
      rw [hnext y (by simp)]
      exact ih h.2.2 fun x hx => hnext x (by simp [hx])

theorem suffix (h : Listed next null p (xs ++ x :: ys)) : Listed next null x (x :: ys) := by
  induction xs generalizing p with
  | nil => exact ⟨rfl, h.2.1, h.2.2⟩
  | cons y xs ih => exact ih h.2.2

theorem next_eq (h : Listed next null p (xs ++ x :: q :: ys)) : next x = q := h.suffix.2.2.1

theorem next_last (h : Listed next null p (xs ++ [x])) : next x = null := h.suffix.2.2

theorem concat (h : Listed next null p (xs ++ [x])) (hnext : ∀ y ∈ xs, next' y = next y)
    (hx : next' x = q) (hq : q ≠ null) (hlast : next' q = null) :
    Listed next' null p (xs ++ [x, q]) := by
  induction xs generalizing p with
  | nil => exact ⟨h.1, h.2.1, hx, hq, hlast⟩
  | cons y xs ih =>
      refine ⟨h.1, h.2.1, ?_⟩
      rw [hnext y (by simp)]
      exact ih h.2.2 fun z hz => hnext z (by simp [hz])

end Listed

end Libnc.Foundation
