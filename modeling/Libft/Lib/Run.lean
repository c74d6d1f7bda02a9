import Mathlib.Algebra.GroupWithZero.Nat
import Mathlib.Tactic.TypeStar

/-!
# Runs

Two ways a state changes. A machine is given one input after another (`Meets`): a property of states that every step keeps, when its
input is acceptable in its state, holds after every run of acceptable inputs. A call is a sequence of small labelled steps (`Does`):
its labels are of a kind, and the sum of their weights is bounded, so that an invariant may be paid for out of a budget.
-/

namespace Libft

open List

section Calls

variable {σ ι : Type*} (step : σ → ι → σ)

/-- Every input of a run is acceptable in the state it comes to. -/
def Meets (P : σ → ι → Prop) : σ → List ι → Prop
  | _, [] => True
  | s, i :: rest => P s i ∧ Meets P (step s i) rest

/-- Whether a run is acceptable can be computed, if that of a step can. -/
instance Meets.decidable (P : σ → ι → Prop) [∀ s i, Decidable (P s i)] : ∀ s is, Decidable (Meets step P s is)
  | _, [] => .isTrue trivial
  | s, i :: rest => @instDecidableAnd _ _ _ (Meets.decidable P (step s i) rest)

variable {step} {P : σ → ι → Prop} {I : σ → Prop} {is more : List ι}

/-- What every acceptable step keeps holds after a run of acceptable inputs. -/
theorem Meets.invariant (hst : ∀ s i, I s → P s i → I (step s i)) : ∀ {s : σ}, I s → Meets step P s is → I (is.foldl step s) := by
  induction is with
  | nil => exact fun hs _ => hs
  | cons i tl ih => exact fun hs h => ih (hst _ i hs h.1) h.2

/-- Where every acceptable step keeps one thing or brings about another, a run keeps the first as long as it has not brought about the
second. -/
theorem Meets.keeps_until {Q : σ → Prop} (hst : ∀ s i, I s → P s i → I (step s i) ∨ Q (step s i)) :
    ∀ {s : σ}, I s → Meets step P s is →
      I (is.foldl step s) ∨ ∃ before after, is = before ++ after ∧ Q (before.foldl step s) := by
  induction is with
  | nil => exact fun hs _ => .inl hs
  | cons i tl ih =>
    intro s hs h
    rcases hst s i hs h.1 with hk | hq
    · rcases ih hk h.2 with he | ⟨before, after, rfl, hq⟩
      · exact .inl he
      · exact .inr ⟨i :: before, after, rfl, hq⟩
    · exact .inr ⟨[i], tl, rfl, hq⟩

/-- Where every input is acceptable, every run is. -/
theorem Meets.of_forall (h : ∀ s i, P s i) (s : σ) (is : List ι) : Meets step P s is := by
  induction is generalizing s with
  | nil => trivial
  | cons i tl ih => exact ⟨h s i, ih (step s i)⟩

/-- A run that is acceptable is acceptable as far as it goes. -/
theorem Meets.left : ∀ {s : σ}, Meets step P s (is ++ more) → Meets step P s is := by
  induction is with
  | nil => exact fun _ => trivial
  | cons i tl ih => exact fun h => ⟨h.1, ih h.2⟩

/-- What follows in a run that is acceptable is acceptable where the rest leads. -/
theorem Meets.right : ∀ {s : σ}, Meets step P s (is ++ more) → Meets step P (is.foldl step s) more := by
  induction is with
  | nil => exact fun h => h
  | cons i tl ih => exact fun h => ih h.2

/-- The last input of a run that is acceptable is acceptable where the others lead. -/
theorem Meets.last {i : ι} {s : σ} (h : Meets step P s (is ++ [i])) : P (is.foldl step s) i :=
  (Meets.right h).1

end Calls

section Steps

variable {σ ι : Type*} (Step : σ → ι → σ → Prop) (weight : ι → ℕ)

/-- A sequence of labelled steps. -/
inductive Steps : σ → List ι → σ → Prop
  | nil (s : σ) : Steps s [] s
  | cons {s t u : σ} {i : ι} {rest : List ι} : Step s i t → Steps t rest u → Steps s (i :: rest) u

/-- Steps with labels of a kind, whose weights add up to a bound at most. -/
def Does (P : ι → Prop) (bound : ℕ) (s t : σ) : Prop :=
  ∃ labels, Steps Step s labels t ∧ (∀ i ∈ labels, P i) ∧ (labels.map weight).sum ≤ bound

variable {Step weight}

/-- Runs are put together. -/
theorem Steps.append {s t u : σ} {l1 l2 : List ι} (h1 : Steps Step s l1 t) (h2 : Steps Step t l2 u) : Steps Step s (l1 ++ l2) u := by
  induction h1 with
  | nil => exact h2
  | cons hs _ ih => exact .cons hs (ih h2)

namespace Does

variable {P Q : ι → Prop} {s t u : σ} {k m : ℕ}

theorem refl (s : σ) : Does Step weight P k s s := ⟨[], .nil s, by simp, by simp⟩

theorem of_eq (h : t = s) : Does Step weight P k s t := h.symm ▸ refl s

/-- A step is a run of its own. -/
theorem single {i : ι} (h : Step s i t) (hP : P i) (hw : (weight i).ble k = true) : Does Step weight P k s t :=
  ⟨[i], .cons h (.nil t), by simpa using hP, by simpa using hw⟩

/-- Weights of runs add up. -/
theorem trans (h1 : Does Step weight P k s t) (h2 : Does Step weight P m t u) : Does Step weight P (k + m) s u := by
  obtain ⟨l1, hs1, hP1, hw1⟩ := h1
  obtain ⟨l2, hs2, hP2, hw2⟩ := h2
  refine ⟨l1 ++ l2, hs1.append hs2, fun i hi => ?_, ?_⟩
  · exact (mem_append.1 hi).elim (hP1 i) (hP2 i)
  · rw [map_append, sum_append]
    omega

/-- A run may be said to do more. -/
theorem mono (h : Does Step weight P k s t) (hPQ : ∀ i, P i → Q i) (hkm : k ≤ m) : Does Step weight Q m s t := by
  obtain ⟨l, hs, hP, hw⟩ := h
  exact ⟨l, hs, fun i hi => hPQ i (hP i hi), Nat.le_trans hw hkm⟩

theorem imp (h : Does Step weight P k s t) (hPQ : ∀ i, P i → Q i) : Does Step weight Q k s t := h.mono hPQ (Nat.le_refl k)

theorem le (h : Does Step weight P k s t) (hkm : k ≤ m) : Does Step weight P m s t := h.mono (fun _ => id) hkm

/-- What every step of the kind keeps, a sequence of them keeps. -/
theorem invariant {I : σ → Prop} (hp : ∀ s i t, Step s i t → P i → I s → I t) (h : Does Step weight P k s t) (hs : I s) : I t := by
  obtain ⟨l, hst, hP, -⟩ := h
  induction hst with
  | nil => exact hs
  | cons hs1 _ ih => exact ih (hp _ _ _ hs1 (hP _ (by simp)) hs) (fun i hi => hP i (by simp [hi]))

/-- An invariant that costs a step its weight is kept by a sequence whose bound was set aside. -/
theorem budget {I : ℕ → σ → Prop} (ha : ∀ s m k, m ≤ k → I k s → I m s)
    (hp : ∀ s i t m, Step s i t → P i → I (m + weight i) s → I m t) (h : Does Step weight P k s t)
    (hs : I (m + k) s) : I m t := by
  obtain ⟨l, hst, hP, hw⟩ := h
  replace hs := ha _ _ _ (Nat.add_le_add_left hw m) hs
  clear hw
  induction hst with
  | nil => simpa using hs
  | @cons s t u i tl hs1 _ ih =>
    refine ih (fun i hi => hP i (by simp [hi])) (hp _ _ _ _ hs1 (hP _ (by simp)) ?_)
    have : m + (tl.map weight).sum + weight i = m + ((i :: tl).map weight).sum := by
      rw [map_cons, sum_cons]
      omega
    rwa [this]

end Does

end Steps

end Libft
