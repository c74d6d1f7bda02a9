import Mathlib.Algebra.BigOperators.Group.List.Lemmas
import Mathlib.Algebra.BigOperators.Fin
import Mathlib.Data.List.Perm.Basic

/-!
# Sums over a list

The sum of a measure over a list, when the list is split by a test or by an index, or loses or exchanges one element.
-/

namespace Libft

open Finset

variable {α : Type*} (f : α → ℕ) {l : List α}

/-- The elements that pass a Boolean test and those that fail it make up the sum. -/
theorem sum_map_filter_add (l : List α) (p : α → Bool) :
    ((l.filter p).map f).sum + ((l.filter fun x => !p x).map f).sum = (l.map f).sum := by
  simpa using List.sum_map_filter_add_sum_map_filter_not (fun x => p x = true) f l

/-- An element that is taken out takes its measure with it. -/
theorem sum_map_eraseIdx {i : ℕ} {x : α} (h : l[i]? = some x) : ((l.eraseIdx i).map f).sum + f x = (l.map f).sum := by
  obtain ⟨hi, rfl⟩ := List.getElem?_eq_some_iff.1 h
  rw [Nat.add_comm, ← List.sum_cons, ← List.map_cons]
  exact ((List.getElem_cons_eraseIdx_perm hi).map f).sum_eq

/-- An element that is exchanged exchanges its measure. -/
theorem sum_map_set {i : ℕ} {x : α} (y : α) (h : l[i]? = some x) : ((l.set i y).map f).sum + f x = (l.map f).sum + f y := by
  obtain ⟨hi, rfl⟩ := List.getElem?_eq_some_iff.1 h
  have hs := ((List.set_perm_cons_eraseIdx hi y).map f).sum_eq
  have he := sum_map_eraseIdx f (List.getElem?_eq_getElem hi)
  rw [List.map_cons, List.sum_cons] at hs
  omega

/-- The parts of a list by an index make up the sum. -/
theorem sum_sum_map_filter {n : ℕ} (j : α → Fin n) (l : List α) : ∑ i, ((l.filter fun x => j x = i).map f).sum = (l.map f).sum := by
  induction l with
  | nil => simp
  | cons x l ih =>
    have hs (i : Fin n) : (((x :: l).filter fun x => j x = i).map f).sum =
        (if j x = i then f x else 0) + ((l.filter fun x => j x = i).map f).sum := by
      by_cases hx : j x = i
      · simp [hx]
      · simp [hx]
    simp only [hs, sum_add_distrib, ih, List.map_cons, List.sum_cons, sum_ite_eq, mem_univ, if_true]

/-- A measure that changes at one index. -/
theorem sum_update {n : ℕ} (g : Fin n → ℕ) (i : Fin n) (v : ℕ) : ∑ j, Function.update g i v j + g i = ∑ j, g j + v := by
  rw [sum_update_of_mem (mem_univ i), ← add_sum_erase _ _ (mem_univ i), sdiff_singleton_eq_erase]
  omega

end Libft
