import Mathlib.Algebra.BigOperators.Group.List.Basic
import Mathlib.Algebra.GroupWithZero.Nat
import Mathlib.Algebra.Order.BigOperators.Group.Finset
import Mathlib.Data.Finset.Card
import Mathlib.Order.Interval.Finset.Nat

/-!
# Spans that keep apart

Spans of the natural numbers, each with the name of its owner, in a space with a bound. `Spread` says that they are not empty, lie in
the space and keep apart. Each way to lay them out anew keeps this: one is made smaller, split, joined with its neighbour, taken away, or
put where there is room.
-/

namespace Libft

open Function List Finset

variable {ι : Type*} {off size : ι → ℕ} {bound : ℕ} {m : List ι} {i j : ι}

/-- One span ends before the other begins. -/
def Apart (off size : ι → ℕ) (i j : ι) : Prop := off i + size i ≤ off j ∨ off j + size j ≤ off i

/-- Spans below a bound, none of them empty, no two of them overlapping. -/
structure Spread (off size : ι → ℕ) (bound : ℕ) (m : List ι) : Prop where
  pos : ∀ i ∈ m, 0 < size i
  le : ∀ i ∈ m, off i + size i ≤ bound
  apart : ∀ i ∈ m, ∀ j ∈ m, i ≠ j → Apart off size i j

theorem Apart.symm (h : Apart off size i j) : Apart off size j i := Or.symm h

namespace Spread

/-- Part of the spans is spread as well. -/
theorem subset {m' : List ι} (h : Spread off size bound m) (hs : m' ⊆ m) : Spread off size bound m' where
  pos i hi := h.pos i (hs hi)
  le i hi := h.le i (hs hi)
  apart i hi j hj := h.apart i (hs hi) j (hs hj)

theorem mono {bound' : ℕ} (h : Spread off size bound m) (hle : bound ≤ bound') : Spread off size bound' m where
  pos := h.pos
  le i hi := (h.le i hi).trans hle
  apart := h.apart

/-- Only the spans of the list matter. -/
theorem congr {off' size' : ι → ℕ} (h : Spread off size bound m)
    (heq : ∀ i ∈ m, off' i = off i ∧ size' i = size i) : Spread off' size' bound m where
  pos i hi := (heq i hi).2 ▸ h.pos i hi
  le i hi := by
    rw [(heq i hi).1, (heq i hi).2]
    exact h.le i hi
  apart i hi j hj hij := by
    unfold Apart
    rw [(heq i hi).1, (heq i hi).2, (heq j hj).1, (heq j hj).2]
    exact h.apart i hi j hj hij

/-- The owner of a place is determined by it. -/
theorem unique (h : Spread off size bound m) (hi : i ∈ m) (hj : j ∈ m) {x : ℕ} (hxi : off i ≤ x ∧ x < off i + size i)
    (hxj : off j ≤ x ∧ x < off j + size j) : i = j := by
  by_contra hij
  rcases h.apart i hi j hj hij with hle | hle <;> omega

theorem nil : Spread off size bound ([] : List ι) where
  pos _ hi := absurd hi not_mem_nil
  le _ hi := absurd hi not_mem_nil
  apart _ hi := absurd hi not_mem_nil

/-- One more span, apart from the others. -/
theorem cons (h : Spread off size bound m) (hp : 0 < size i) (hle : off i + size i ≤ bound)
    (ha : ∀ j ∈ m, j ≠ i → Apart off size i j) : Spread off size bound (i :: m) where
  pos := forall_mem_cons.mpr ⟨hp, h.pos⟩
  le := forall_mem_cons.mpr ⟨hle, h.le⟩
  apart j hj k hk hjk := by
    rcases mem_cons.mp hj with rfl | hj
    · rcases mem_cons.mp hk with rfl | hk
      · exact absurd rfl hjk
      · exact ha k hk (Ne.symm hjk)
    · rcases mem_cons.mp hk with heq | hk
      · rw [heq] at hjk ⊢
        exact (ha j hj hjk).symm
      · exact h.apart j hj k hk hjk

variable [DecidableEq ι] {o n : ℕ}

section

variable (h : Spread off size bound m)

include h

/-- A new span, where no other one is. -/
theorem insert (hi : i ∉ m) (hp : 0 < n) (hle : o + n ≤ bound)
    (ha : ∀ j ∈ m, o + n ≤ off j ∨ off j + size j ≤ o) : Spread (update off i o) (update size i n) bound (i :: m) := by
  have hne : ∀ j ∈ m, j ≠ i := fun j hj heq => hi (heq ▸ hj)
  have hr : Spread (update off i o) (update size i n) bound m :=
    h.congr fun j hj => ⟨update_of_ne (hne j hj) .., update_of_ne (hne j hj) ..⟩
  refine hr.cons ?_ ?_ fun j hj hji => ?_
  · rw [update_self]
    exact hp
  · rw [update_self, update_self]
    exact hle
  · unfold Apart
    rw [update_self, update_self, update_of_ne hji, update_of_ne hji]
    exact ha j hj

/-- A span is laid out anew, where no other one is. -/
theorem replace (hp : 0 < n) (hle : o + n ≤ bound)
    (ha : ∀ j ∈ m, j ≠ i → o + n ≤ off j ∨ off j + size j ≤ o) : Spread (update off i o) (update size i n) bound (i :: m) := by
  have hr : Spread off size bound (m.filter (· ≠ i)) := h.subset (filter_subset_self m)
  have hm : ∀ j, j ∈ m.filter (· ≠ i) ↔ j ∈ m ∧ j ≠ i := by simp
  have hn := hr.insert (fun hi => ((hm i).mp hi).2 rfl) hp hle fun j hj =>
    ha j ((hm j).mp hj).1 ((hm j).mp hj).2
  refine hn.subset fun j hj => ?_
  by_cases hji : j = i
  · rw [hji]
    exact mem_cons_self
  · exact mem_cons_of_mem i ((hm j).mpr ⟨(mem_cons.mp hj).resolve_left hji, hji⟩)

/-- A span that gets smaller. -/
theorem shrink (hi : i ∈ m) (hp : 0 < n) (hle : n ≤ size i) : Spread off (update size i n) bound m := by
  have hn := h.replace (i := i) (o := off i) hp (by have := h.le i hi; omega) fun j hj hji => by
    rcases h.apart i hi j hj (Ne.symm hji) with hap | hap <;> omega
  rw [update_eq_self] at hn
  exact hn.subset fun j hj => mem_cons_of_mem i hj

/-- The second part of a span gets an owner of its own. -/
theorem split (hi : i ∈ m) (hj : j ∉ m) (hp : 0 < n) (hlt : n < size i) :
    Spread (update off j (off i + n)) (update (update size j (size i - n)) i n) bound (j :: m) := by
  have hle := h.le i hi
  have hji : j ≠ i := fun heq => hj (heq ▸ hi)
  have hn := (h.shrink hi hp hlt.le).insert (o := off i + n) (n := size i - n) hj (by omega) (by omega) fun k hk => by
    by_cases hki : k = i
    · subst hki
      right
      rw [update_self]
    · rw [update_of_ne hki]
      rcases h.apart i hi k hk (Ne.symm hki) with hap | hap <;> omega
  rwa [update_comm (Ne.symm hji)] at hn

/-- A span takes in the one after it, or the one before it. -/
theorem join (hi : i ∈ m) (hj : j ∈ m)
    (hnx : off j + size j = off i ∧ o = off j ∨ off i + size i = off j ∧ o = off i) {m' : List ι}
    (hs : m' ⊆ m) (hj' : j ∉ m') : Spread (update off i o) (update (update size i (size i + size j)) j 0) bound m' := by
  have hli := h.le i hi
  have hlj := h.le j hj
  have hpi := h.pos i hi
  have hn := (h.subset hs).replace (i := i) (o := o) (n := size i + size j) (by omega) (by omega) fun k hk hki => by
    have hkj : j ≠ k := fun heq => hj' (heq ▸ hk)
    have hpk := h.pos k (hs hk)
    rcases h.apart i hi k (hs hk) (Ne.symm hki) with hap | hap <;>
      rcases h.apart j hj k (hs hk) hkj with hap' | hap' <;> omega
  refine (hn.subset fun k hk => mem_cons_of_mem i hk).congr fun k hk => ⟨rfl, ?_⟩
  exact update_of_ne (fun heq : k = j => hj' (heq ▸ hk)) ..

/-- Spans that keep apart take no more room than there is. -/
theorem sum_le (hnd : m.Nodup) : (m.map size).sum ≤ bound := by
  have hd : ∀ i ∈ m.toFinset, ∀ j ∈ m.toFinset, i ≠ j →
      Disjoint (Finset.Ico (off i) (off i + size i)) (Finset.Ico (off j) (off j + size j)) := by
    intro i hi j hj hij
    rw [Finset.disjoint_left]
    intro x hx hx'
    rw [mem_Ico] at hx hx'
    exact hij (h.unique (mem_toFinset.mp hi) (mem_toFinset.mp hj) hx hx')
  have hc := card_biUnion hd
  simp only [Nat.card_Ico, Nat.add_sub_cancel_left] at hc
  rw [← sum_toFinset size hnd, ← hc]
  have hs : (m.toFinset.biUnion fun i => Finset.Ico (off i) (off i + size i)) ⊆ range bound := by
    intro x hx
    obtain ⟨i, hi, hx⟩ := mem_biUnion.mp hx
    have := h.le i (mem_toFinset.mp hi)
    rw [mem_Ico] at hx
    rw [Finset.mem_range]
    omega
  exact (card_le_card hs).trans (card_range bound).le

end

end Spread

/-- Spans that leave nothing out up to a bound take at least that much room. -/
theorem le_sum_of_covered [DecidableEq ι] (h : ∀ x < bound, ∃ i ∈ m, off i ≤ x ∧ x < off i + size i) (hnd : m.Nodup) :
    bound ≤ (m.map size).sum := by
  have hs : Finset.range bound ⊆ m.toFinset.biUnion fun i => Finset.Ico (off i) (off i + size i) := by
    intro x hx
    obtain ⟨i, hi, hx⟩ := h x (Finset.mem_range.mp hx)
    exact Finset.mem_biUnion.mpr ⟨i, mem_toFinset.mpr hi, Finset.mem_Ico.mpr hx⟩
  have hc := (card_le_card hs).trans card_biUnion_le
  simpa only [card_range, Nat.card_Ico, Nat.add_sub_cancel_left, sum_toFinset size hnd] using hc

end Libft
