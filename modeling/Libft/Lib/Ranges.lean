import Mathlib.Data.Nat.Notation
import Mathlib.Tactic.TypeStar

/-!
# Ranges of a memory

A memory is a function of the address. `overwrite` replaces what is at the addresses of a range.
-/

namespace Libft

variable {α : Type*} {f g : ℕ → α} {a n x : ℕ}

/-- A memory with other contents in a range. -/
def overwrite (f : ℕ → α) (a n : ℕ) (g : ℕ → α) : ℕ → α := fun x => if a ≤ x ∧ x < a + n then g (x - a) else f x

/-- Inside the range the new cells are read. -/
theorem overwrite_of_mem (h : a ≤ x ∧ x < a + n) : overwrite f a n g x = g (x - a) := if_pos h

/-- Outside of it the old ones are. -/
theorem overwrite_of_not_mem (h : x < a ∨ a + n ≤ x) : overwrite f a n g x = f x := if_neg (by omega)

@[simp] theorem overwrite_add {k : ℕ} (h : k < n) : overwrite f a n g (a + k) = g k := by
  rw [overwrite_of_mem (by omega), Nat.add_sub_cancel_left]

@[simp] theorem overwrite_zero (f : ℕ → α) (a : ℕ) (g : ℕ → α) : overwrite f a 0 g = f := by
  funext x
  exact overwrite_of_not_mem (by omega)

/-- What is there already. -/
theorem overwrite_self (f : ℕ → α) (a n : ℕ) : overwrite f a n (fun k => f (a + k)) = f := by
  funext x
  by_cases h : a ≤ x ∧ x < a + n
  · rw [overwrite_of_mem h, Nat.add_sub_cancel' h.1]
  · exact if_neg h

end Libft
