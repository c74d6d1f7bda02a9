import Mathlib.Data.Finset.Lattice.Lemmas
import Mathlib.Data.Finset.Range
import Mathlib.Data.List.Induction

/-!
# Collecting the parts of wholes

Parts of several wholes arrive in any order, with repetition. A collector remembers which parts of each whole it has; the part that makes
a whole complete hands it over, and the collector forgets the parts of it. A whole that was never complete is handed over by the last
part that was missing.
-/

namespace Libft

open Finset Function

section Collect

variable {κ : Type*} [DecidableEq κ] (count : κ → ℕ)

/-- A part makes its whole complete. -/
def Completes (s : κ → Finset ℕ) (a : κ × ℕ) : Prop := Finset.range (count a.1) ⊆ insert a.2 (s a.1)

instance Completes.decidable (s : κ → Finset ℕ) (a : κ × ℕ) : Decidable (Completes count s a) :=
  inferInstanceAs (Decidable (Finset.range (count a.1) ⊆ insert a.2 (s a.1)))

/-- A part arrives. -/
def collect (s : κ → Finset ℕ) (a : κ × ℕ) : κ → Finset ℕ :=
  update s a.1 (if Completes count s a then ∅ else insert a.2 (s a.1))

/-- The parts of each whole that have arrived since it was handed over last. -/
def collected (arrivals : List (κ × ℕ)) : κ → Finset ℕ := arrivals.foldl (collect count) fun _ => ∅

/-- The parts of a whole that have ever arrived. -/
def arrived (k : κ) (arrivals : List (κ × ℕ)) : Finset ℕ := ((arrivals.filter fun a => a.1 = k).map Prod.snd).toFinset

/-- What the last arrival does. -/
theorem collected_append (arr : List (κ × ℕ)) (a : κ × ℕ) :
    collected count (arr ++ [a]) = collect count (collected count arr) a := by
  simp [collected, List.foldl_append]

/-- The last arrival adds its part to its own key. -/
theorem arrived_append (k : κ) (arr : List (κ × ℕ)) (a : κ × ℕ) :
    arrived k (arr ++ [a]) = if a.1 = k then insert a.2 (arrived k arr) else arrived k arr := by
  by_cases hk : a.1 = k
  · rw [if_pos hk, arrived, arrived, List.filter_append, List.filter_singleton, decide_eq_true hk, cond_true, List.map_append,
      List.toFinset_append]
    simp [union_comm]
  · rw [if_neg hk, arrived, arrived, List.filter_append, List.filter_singleton, decide_eq_false hk, cond_false, List.append_nil]

variable {count}

/-- As long as a part of a whole is missing, the collector has all that has arrived of it. -/
theorem collected_of_missing (k : κ) (arr : List (κ × ℕ)) (h : ¬range (count k) ⊆ arrived k arr) :
    collected count arr k = arrived k arr := by
  induction arr using List.reverseRecOn with
  | nil => rfl
  | append_singleton arr a ih =>
    rw [arrived_append] at h ⊢
    rw [collected_append, collect]
    by_cases hk : a.1 = k
    · subst hk
      rw [if_pos rfl] at h ⊢
      have hb : ¬range (count a.1) ⊆ arrived a.1 arr := fun ha => h (ha.trans (subset_insert _ _))
      have hi : ¬Completes count (collected count arr) a := by
        rw [Completes, ih hb]
        exact h
      rw [update_self, if_neg hi, ih hb]
    · rw [if_neg hk] at h ⊢
      rw [update_of_ne (Ne.symm hk), ih h]

/-- The last missing part of a whole makes it complete, and no part before it does. -/
theorem completes_iff_of_missing {k : κ} {arr : List (κ × ℕ)} (h : ¬range (count k) ⊆ arrived k arr)
    (i : ℕ) : Completes count (collected count arr) (k, i) ↔ range (count k) ⊆ arrived k (arr ++ [(k, i)]) := by
  rw [arrived_append, if_pos rfl, Completes, collected_of_missing k arr h]

end Collect

end Libft
