import Mathlib.Algebra.BigOperators.Group.Finset.Basic
import Mathlib.Algebra.Order.BigOperators.Group.Finset
import Libft.Lib.Run

/-!
# Queues that earn and pay

In every turn each queue that waits earns its weight, and the one that has most is served and pays one. Queues of equal weight that wait
all the time are served equally often, up to what they had at the start. A queue that is lighter than another is served only as often as
it was ahead of it at the start: what the heavier one pays for a turn, it earns in the same turn.
-/

namespace Libft

open Finset List

section Deficit

variable {ι : Type*} (w : ι → ℕ)

/-- One turn, in which the queues of a set wait and one of them is served. -/
structure Turn (A : Set ι) (d : ι → ℕ) (s : ι) (d' : ι → ℕ) : Prop where
  mem : s ∈ A
  most : ∀ i ∈ A, d i + w i ≤ d s + w s
  served : d' s + 1 = d s + w s
  others : ∀ i ∈ A, i ≠ s → d' i = d i + w i
  rest : ∀ i, i ∉ A → d' i = d i

/-- Turns in which some queues wait all the time, and no others than some wait at all. -/
def Turns (B W : Set ι) : (ι → ℕ) → List ι → (ι → ℕ) → Prop :=
  Steps fun d s d' => ∃ A, B ⊆ A ∧ A ⊆ W ∧ Turn w A d s d'

variable {w} {B W : Set ι} {d d' : ι → ℕ} {log : List ι} {i j b : ι}

/-- A part of some turns is a sequence of turns between two states on the way. -/
theorem Turns.split {first more : List ι} : ∀ {d : ι → ℕ}, Turns w B W d (first ++ more) d' →
    ∃ m, Turns w B W d first m ∧ Turns w B W m more d' := by
  induction first with
  | nil => exact fun h => ⟨_, .nil _, h⟩
  | cons s first ih =>
    intro d h
    cases h with
    | cons ht hr =>
      obtain ⟨m, hf, hmr⟩ := ih hr
      exact ⟨m, .cons ht hf, hmr⟩

/-- No queue gets further ahead of one that is at least as heavy and waits all the time. -/
theorem Turns.le_add (h : Turns w B W d log d') (hb : b ∈ B) (hp : 0 < w b) (hi : i ∈ W → w i ≤ w b) {c : ℕ} (hc : 1 ≤ c)
    (hs : d i ≤ d b + c) : d' i ≤ d' b + c := by
  induction h with
  | nil => exact hs
  | @cons d m d' s log ht _ ih =>
    obtain ⟨A, hBA, hAW, ht⟩ := ht
    apply ih
    have hbA := hBA hb
    by_cases hsm : i = b
    · rw [hsm]
      omega
    by_cases hiA : i ∈ A
    · have hw := hi (hAW hiA)
      have hms := ht.most i hiA
      rcases eq_or_ne b s with rfl | hbs
      · have := ht.served
        have := ht.others i hiA hsm
        omega
      · have hb' := ht.others b hbA hbs
        rcases eq_or_ne i s with rfl | his
        · have := ht.served
          omega
        · have := ht.others i hiA his
          omega
    · have hi' := ht.rest i hiA
      rcases eq_or_ne b s with rfl | hbs
      · have := ht.served
        omega
      · have := ht.others b hbA hbs
        omega

variable [DecidableEq ι] {before win after : List ι}

/-- What a queue that waits all the time has is what it earned, less one for each turn it was served. -/
theorem Turns.earned (h : Turns w B W d log d') (hi : i ∈ B) : d' i + log.count i = d i + w i * log.length := by
  induction h with
  | nil => simp
  | @cons d m d' s log ht _ ih =>
    obtain ⟨A, hBA, -, ht⟩ := ht
    rw [length_cons, Nat.mul_succ]
    rcases eq_or_ne i s with rfl | his
    · have := ht.served
      rw [count_cons_self]
      omega
    · have := ht.others i (hBA hi) his
      rw [count_cons_of_ne his.symm]
      omega

/-- A queue that is lighter than another is served no more often than it was ahead at the start. -/
theorem Turns.count_le (h : Turns w B W d log d') (hi : i ∈ B) (hj : j ∈ B) (hl : w i < w j) : log.count i ≤ d i - d j := by
  induction h with
  | nil => simp
  | @cons d m d' s log ht _ ih =>
    obtain ⟨A, hBA, -, ht⟩ := ht
    have hij : j ≠ i := by
      rintro rfl
      exact Nat.lt_irrefl _ hl
    rcases eq_or_ne i s with rfl | his
    · -- it is served only when it is ahead, and falls back by two at least
      have := ht.most j (hBA hj)
      have := ht.served
      have := ht.others j (hBA hj) hij
      rw [count_cons_self]
      omega
    · have := ht.others i (hBA hi) his
      rw [count_cons_of_ne his.symm]
      rcases eq_or_ne j s with rfl | hjs
      · have := ht.served
        omega
      · have := ht.others j (hBA hj) hjs
        omega

/-- Queues of equal weight that wait all the time are served equally often, up to a constant that the start gives, in every part of the
turns. -/
theorem Turns.count_le_count_add (h : Turns w B W d (before ++ win ++ after) d') (hi : i ∈ B)
    (hj : j ∈ B) (hw : w i = w j) (hp : 0 < w i) {c : ℕ} (hc : 1 ≤ c) (hij : d i ≤ d j + c) (hji : d j ≤ d i + c) :
    win.count i ≤ win.count j + 2 * c := by
  obtain ⟨m2, h2, -⟩ := h.split
  obtain ⟨m1, h1, hwn⟩ := h2.split
  have hb := h1.le_add hj (hw ▸ hp) (fun _ => hw.le) hc hij
  have ha := h2.le_add hi hp (fun _ => hw.ge) hc hji
  have hi' := hwn.earned hi
  have hj' := hwn.earned hj
  rw [hw] at hi'
  omega

variable [Fintype ι]

/-- As long as a queue is not served that waits all the time and that no other outweighs, the others use up what they are ahead. -/
theorem Turns.length_le (h : Turns w B W d log d') (hb : b ∈ B) (hm : ∀ i ∈ W, w i ≤ w b) (hl : b ∉ log) :
    log.length ≤ ∑ i ∈ univ.erase b, (d i + 1 - d b) := by
  induction h with
  | nil => simp
  | @cons d m d' s log ht _ ih =>
    obtain ⟨A, hBA, hAW, ht⟩ := ht
    rw [List.mem_cons, not_or] at hl
    have hb' := ht.others b (hBA hb) hl.1
    have hms := ht.most b (hBA hb)
    have hw := hm s (hAW ht.mem)
    have hs := ht.served
    have hlt : ∑ i ∈ univ.erase b, (m i + 1 - m b) < ∑ i ∈ univ.erase b, (d i + 1 - d b) := by
      refine sum_lt_sum (fun i _ => ?_) ⟨s, mem_erase.2 ⟨Ne.symm hl.1, mem_univ s⟩, by omega⟩
      rcases eq_or_ne i s with rfl | his
      · omega
      by_cases hiA : i ∈ A
      · have := ht.others i hiA his
        have := hm i (hAW hiA)
        omega
      · have := ht.rest i hiA
        omega
    have := ih hl.2
    rw [length_cons]
    omega

/-- A queue that waits all the time and that no other outweighs is served in every part of the turns that is long enough. -/
theorem Turns.mem_of_lt (h : Turns w B W d (before ++ win ++ after) d') (hb : b ∈ B)
    (hp : 0 < w b) (hm : ∀ i ∈ W, w i ≤ w b)
    (hl : ∑ i ∈ univ.erase b, (max 1 (d i - d b) + 1) < win.length) : b ∈ win := by
  by_contra hw
  obtain ⟨m2, h2, -⟩ := h.split
  obtain ⟨m1, h1, ht⟩ := h2.split
  have hbn := ht.length_le hb hm hw
  have hs : ∑ i ∈ univ.erase b, (m1 i + 1 - m1 b) ≤ ∑ i ∈ univ.erase b, (max 1 (d i - d b) + 1) := by
    refine sum_le_sum fun i _ => ?_
    have := h1.le_add hb hp (hm i) (le_max_left 1 (d i - d b)) (by omega)
    omega
  omega

end Deficit

end Libft
