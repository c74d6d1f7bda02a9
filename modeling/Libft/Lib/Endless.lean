import Libft.Lib.Run
import Mathlib.Data.Finset.Lattice.Fold
import Mathlib.Data.Nat.Periodic
import Mathlib.Tactic.ByContra
import Mathlib.Tactic.Choose

/-!
# Endless runs

A machine that is given inputs without end goes through a sequence of states. What it must come to is proved from what recurs: a
property that lasts until something happens meets it, if it happens (`exists_turn`); a property that does not last
forever has a last moment (`exists_exit`); and a quantity that does not grow is constant in the end (`exists_constant`).
-/

namespace Libft

open List Nat

section Course

variable {σ ι : Type*} (step : σ → ι → σ)

/-- The states an endless run goes through. -/
def course (s : σ) (is : ℕ → ι) : ℕ → σ
  | 0 => s
  | n + 1 => step (course s is n) (is n)

variable {step} {s : σ} {is : ℕ → ι} {P : σ → ι → Prop} {I : σ → Prop}

/-- What every acceptable step keeps holds in every state of a run of acceptable inputs. -/
theorem course_invariant (hst : ∀ s i, I s → P s i → I (step s i)) (hs : I s) (h : ∀ n, P (course step s is n) (is n)) :
    ∀ n, I (course step s is n)
  | 0 => hs
  | n + 1 => hst _ _ (course_invariant hst hs h n) (h n)

/-! ## Runs that come around -/

/-- The inputs of one list, and then those of another again and again. -/
def cycle (first again : List ι) (d : ι) (n : ℕ) : ι := first.getD n (again.getD ((n - first.length) % again.length) d)

/-- After its front, a cycle repeats. -/
theorem cycle_add (first again : List ι) (d : ι) (n : ℕ) : cycle first again d (first.length + n) = again.getD (n % again.length) d := by
  unfold cycle
  rw [getD_eq_getElem?_getD, getElem?_eq_none (Nat.le_add_right ..), Nat.add_sub_cancel_left]
  rfl

/-- What holds of all that is written from some place on holds of all inputs from there on. -/
theorem cycle_from {P : ι → Prop} {first again : List ι} {d : ι} {k n : ℕ} (h : ∀ i ∈ d :: first.drop k ++ again, P i) (hn : k ≤ n) :
    P (cycle first again d n) := by
  have hgd : ∀ (l : List ι) (n : ℕ), l.getD n d = d ∨ l.getD n d ∈ l := by
    intro l n
    rw [getD_eq_getElem?_getD]
    cases hget : l[n]? with
    | none => exact .inl rfl
    | some i => exact .inr (mem_of_getElem? hget)
  simp only [cons_append, mem_cons, mem_append] at h
  by_cases hlt : n < first.length
  · unfold cycle
    rw [getD_eq_getElem?_getD, getElem?_eq_getElem hlt]
    refine h _ (.inr (.inl (mem_of_getElem? (i := n - k) ?_)))
    rw [getElem?_drop, Nat.add_sub_cancel' hn, getElem?_eq_getElem hlt]
    rfl
  · obtain ⟨m, rfl⟩ := Nat.exists_eq_add_of_le (Nat.le_of_not_lt hlt)
    rw [cycle_add]
    exact h _ ((hgd again (m % again.length)).imp_right .inr)

variable {first again : List ι} {d : ι}

/-- Every input of the second list comes again and again. -/
theorem recurs_cycle {j : ℕ} (hj : j < again.length) (n : ℕ) : ∃ m, n ≤ m ∧ cycle first again d m = again.getD j d := by
  refine ⟨first.length + (j + again.length * n), ?_, ?_⟩
  · have hle : 1 * n ≤ again.length * n := mul_le_mul_right n (by omega)
    omega
  · rw [cycle_add, add_mul_mod_self_left, mod_eq_of_lt hj]

/-- A run that is back where it was after one round is there after every round. -/
theorem course_cycle (hr : course step s (cycle first again d) (first.length + again.length) =
    course step s (cycle first again d) first.length) (n : ℕ) :
    course step s (cycle first again d) (first.length + n) = course step s (cycle first again d) (first.length + n % again.length) := by
  have hp : Function.Periodic (fun n => course step s (cycle first again d) (first.length + n)) again.length := by
    intro n
    induction n with
    | zero =>
      beta_reduce
      rw [zero_add]
      exact hr
    | succ n ih =>
      beta_reduce at ih ⊢
      rw [add_right_comm n 1]
      change step (course step s (cycle first again d) (first.length + (n + again.length)))
        (cycle first again d (first.length + (n + again.length))) =
          step (course step s (cycle first again d) (first.length + n)) (cycle first again d (first.length + n))
      rw [ih, cycle_add, cycle_add, add_mod_right]
  exact (hp.map_mod_nat n).symm

/-- What holds at one moment of the round holds again and again. -/
theorem recurs_of_cycle (hr : course step s (cycle first again d) (first.length + again.length) =
    course step s (cycle first again d) first.length) {j : ℕ} (hj : j < again.length)
    (h : I (course step s (cycle first again d) (first.length + j))) (n : ℕ) : ∃ m, n ≤ m ∧ I (course step s (cycle first again d) m) := by
  refine ⟨first.length + (j + again.length * n), ?_, ?_⟩
  · have hle : 1 * n ≤ again.length * n := mul_le_mul_right n (by omega)
    omega
  · rw [course_cycle hr, add_mul_mod_self_left, mod_eq_of_lt hj]
    exact h

end Course

section Moments

variable {P Q A : ℕ → Prop} {f : ℕ → ℕ} {n m : ℕ}

/-- It happens again and again. -/
def Recurs (A : ℕ → Prop) : Prop := ∀ n, ∃ m, n ≤ m ∧ A m

/-- What every moment hands on to the next lasts. -/
theorem lasts (h : ∀ k, P k → P (k + 1)) (hn : P n) (hle : n ≤ m) : P m := by
  induction hle with
  | refl => exact hn
  | step _ ih => exact h _ ih

/-- What leads to something that leads on to the aim leads to the aim. -/
theorem exists_later (h : ∃ m, n ≤ m ∧ P m) (hnx : ∀ m, P m → ∃ m', m ≤ m' ∧ Q m') : ∃ m, n ≤ m ∧ Q m := by
  obtain ⟨m, hle, hm⟩ := h
  obtain ⟨m', hl', hm'⟩ := hnx m hm
  exact ⟨m', le_trans hle hl', hm'⟩

/-- What lasts until something happens meets it, if it happens when the other lasts. -/
theorem exists_turn (hn : P n) (hs : ∀ k, P k → ¬A k → P (k + 1)) (hmt : (∀ m, n ≤ m → P m) → ∃ m, n ≤ m ∧ A m) :
    ∃ m, n ≤ m ∧ P m ∧ A m := by
  by_contra hnot
  have hnv : ∀ m, n ≤ m → P m → ¬A m := fun m hle hP hA => hnot ⟨m, hle, hP, hA⟩
  have hl : ∀ m, n ≤ m → P m := by
    intro m hle
    induction hle with
    | refl => exact hn
    | step hle ih => exact hs _ ih (hnv _ hle ih)
  obtain ⟨m, hle, hA⟩ := hmt hl
  exact hnv m hle (hl m hle) hA

/-- What does not last forever has a last moment. -/
theorem exists_exit (hn : P n) (h : ∃ m, n ≤ m ∧ ¬P m) : ∃ m, n ≤ m ∧ P m ∧ ¬P (m + 1) := by
  by_contra hnot
  obtain ⟨m, hle, hm⟩ := h
  refine hm ?_
  clear hm
  induction hle with
  | refl => exact hn
  | step hle ih => exact not_not.mp fun h => hnot ⟨_, hle, ih, h⟩

/-- The same, with all that came before it. -/
theorem exists_first_exit (hn : P n) (h : ∃ m, n ≤ m ∧ ¬P m) : ∃ m, n ≤ m ∧ (∀ k, n ≤ k → k ≤ m → P k) ∧ ¬P (m + 1) := by
  obtain ⟨m, hle, hm⟩ := h
  obtain ⟨m', hl', hm', ht⟩ := exists_exit (P := fun m => ∀ k, n ≤ k → k ≤ m → P k) (n := n)
    (fun k h1 h2 => le_antisymm h1 h2 ▸ hn) ⟨m, hle, fun ha => hm (ha m hle (le_refl m))⟩
  refine ⟨m', hl', hm', fun hP => ht fun k h1 h2 => ?_⟩
  rcases lt_or_ge m' k with hlt | hge
  · rwa [show k = m' + 1 by omega]
  · exact hm' k h1 hge

/-- What holds of each of finitely many from some moment on holds of all from some moment on. -/
theorem exists_common {κ : Type*} {R : κ → ℕ → Prop} (S : Finset κ) (n : ℕ) (h : ∀ i ∈ S, ∃ m, ∀ k, m ≤ k → R i k) :
    ∃ m, n ≤ m ∧ ∀ i ∈ S, ∀ k, m ≤ k → R i k := by
  choose! f hf using h
  exact ⟨n + S.sup f, Nat.le_add_right .., fun i hi k hk => hf i hi k (Nat.le_trans (Finset.le_sup hi) (Nat.le_of_add_left_le hk))⟩

/-- A quantity that does not grow from some moment on is constant from some moment on. -/
theorem exists_constant (h : ∀ k, n ≤ k → f (k + 1) ≤ f k) : ∃ m, ∀ k, m ≤ k → f k = f m := by
  -- the moment of its least value
  obtain ⟨m, hm, hn⟩ := (measure f).wf.has_min {m | n ≤ m} ⟨n, le_refl n⟩
  refine ⟨m, fun k hk => ?_⟩
  induction hk with
  | refl => rfl
  | step hk ih => exact Nat.le_antisymm (ih ▸ h _ (Nat.le_trans hm hk)) (Nat.le_of_not_lt (hn _ (Nat.le_succ_of_le (Nat.le_trans hm hk))))

end Moments

end Libft
