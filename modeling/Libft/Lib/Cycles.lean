import Mathlib.Data.Nat.Notation
import Mathlib.Logic.Relation

/-!
# Cycles

A relation without cycles stays so when its edges that lead on are old ones, or when one edge is added whose end does not lead back.
Following a partial function from a point, a goal is met first after a number of steps that the point determines.
-/

namespace Libft

open Relation Option

variable {α : Type*}

/-- No way leads back to where it began. -/
def Acyclic (r : α → α → Prop) : Prop := ∀ a, ¬TransGen r a a

section Acyclic

variable {r r' : α → α → Prop} {a b : α}

/-- On a cycle every edge leads on, so those edges are all that matters. -/
theorem Acyclic.of_leads_on (h : Acyclic r) (hr : ∀ x y z, r' x y → r' y z → r x y) : Acyclic r' := by
  have hp : ∀ x y, TransGen r' x y → (∃ z, r' y z) → TransGen r x y := by
    intro x y hxy
    induction hxy with
    | single he => exact fun ⟨z, hz⟩ => .single (hr _ _ z he hz)
    | tail _ he ih => exact fun ⟨z, hz⟩ => .tail (ih ⟨_, he⟩) (hr _ _ z he hz)
  intro x hx
  obtain ⟨y, hy, _⟩ := TransGen.head'_iff.mp hx
  exact h x (hp x x hx ⟨y, hy⟩)

/-- One more edge closes a cycle only if its end leads back to its beginning. -/
theorem Acyclic.add_edge (h : Acyclic r) (hr : ∀ x y, r' x y → r x y ∨ (x = a ∧ y = b)) (hb : ¬ReflTransGen r b a) : Acyclic r' := by
  have hp : ∀ x y, TransGen r' x y → TransGen r x y ∨ (ReflTransGen r x a ∧ ReflTransGen r b y) := by
    intro x y hxy
    induction hxy with
    | single he =>
      rcases hr _ _ he with ho | ⟨rfl, rfl⟩
      · exact .inl (.single ho)
      · exact .inr ⟨.refl, .refl⟩
    | tail _ he ih =>
      rcases hr _ _ he with ho | ⟨rfl, rfl⟩
      · rcases ih with hp | ⟨hxa, hby⟩
        · exact .inl (.tail hp ho)
        · exact .inr ⟨hxa, .tail hby ho⟩
      · rcases ih with hp | ⟨hxa, _⟩
        · exact .inr ⟨hp.to_reflTransGen, .refl⟩
        · exact .inr ⟨hxa, .refl⟩
  intro x hx
  rcases hp x x hx with ho | ⟨hxa, hbx⟩
  · exact h x ho
  · exact hb (hbx.trans hxa)

end Acyclic

section Hits

variable {next : α → Option α} {goal : α → Prop} {a b : α} {n k : ℕ}

variable (next goal) in
/-- Following `next`, the goal is met first after `n` steps and one more. -/
def Hits : ℕ → α → Prop
  | 0, a => ∃ b, next a = some b ∧ goal b
  | n + 1, a => ∃ b, next a = some b ∧ ¬goal b ∧ Hits n b

/-- The goal is hit at one distance only. -/
theorem Hits.unique (hn : Hits next goal n a) (hk : Hits next goal k a) : n = k := by
  induction n generalizing a k with
  | zero =>
    obtain ⟨b, hb, hg⟩ := hn
    cases k with
    | zero => rfl
    | succ k =>
      obtain ⟨b', hb', ht, _⟩ := hk
      obtain rfl := some.inj (hb.symm.trans hb')
      exact absurd hg ht
  | succ n ih =>
    obtain ⟨b, hb, ht, hr⟩ := hn
    cases k with
    | zero =>
      obtain ⟨b', hb', hg⟩ := hk
      obtain rfl := some.inj (hb.symm.trans hb')
      exact absurd hg ht
    | succ k =>
      obtain ⟨b', hb', _, hr'⟩ := hk
      obtain rfl := some.inj (hb.symm.trans hb')
      rw [ih hr hr']

/-- Only the next point matters. -/
theorem Hits.of_next_eq (h : Hits next goal n a) (heq : next b = next a) : Hits next goal n b := by
  cases n with
  | zero =>
    obtain ⟨x, hx, hg⟩ := h
    exact ⟨x, heq.trans hx, hg⟩
  | succ n =>
    obtain ⟨x, hx, hr⟩ := h
    exact ⟨x, heq.trans hx, hr⟩

/-- A goal on the way is met. -/
theorem exists_hits (h : TransGen (fun x y => next x = some y) a b) (hb : goal b) : ∃ n, Hits next goal n a := by
  induction h using TransGen.head_induction_on with
  | single he => exact ⟨0, b, he, hb⟩
  | @head x y he _ ih =>
    obtain ⟨n, hn⟩ := ih
    by_cases hy : goal y
    · exact ⟨0, y, he, hy⟩
    · exact ⟨n + 1, y, he, hy, hn⟩

end Hits

end Libft
