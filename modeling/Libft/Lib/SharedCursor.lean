import Mathlib.Data.List.Basic
import Mathlib.Tactic.TypeStar

/-!
# Two senders that share their counters

Each of two parties has one counter for a channel, which numbers what it sends and is also the number of what it accepts next: it moves
on with either. That works as long as a party sends only when it has accepted all that the other sent. `InTurn` is what one of them
knows then: what it accepted is where the other began, what the other sent before is below the counter, and the rest follows from the
counter on without a gap.
-/

namespace Libft

open List

variable {α : Type*}

/-- A party that has sent so many items, has accepted some of those the other sent under their numbers, and has its counter at a
number. -/
structure InTurn (mine : ℕ) (theirs : List (ℕ × α)) (got : List α) (cur : ℕ) : Prop where
  accepted : got <+: theirs.map Prod.snd
  cursor_eq : cur = 1 + mine + got.length
  past : ∀ k x, theirs[k]? = some x → k < got.length → x.1 < cur
  next : ∀ k x, theirs[k]? = some x → got.length ≤ k → x.1 = cur + (k - got.length)

namespace InTurn

variable {mine cur : ℕ} {theirs : List (ℕ × α)} {got : List α}

/-- Nothing is sent and nothing has arrived. -/
theorem empty : InTurn 0 ([] : List (ℕ × α)) [] 1 := ⟨prefix_refl _, rfl, by simp, by simp⟩

section

variable (h : InTurn mine theirs got cur) {x : ℕ × α}

include h

/-- No more arrives than was sent. -/
theorem length_le : got.length ≤ theirs.length := by
  simpa using h.accepted.length_le

/-- What has the number of the counter is the first that was not accepted. -/
theorem index_eq {k : ℕ} (hx : theirs[k]? = some x) (hnx : x.1 = cur) : k = got.length := by
  rcases Nat.lt_or_ge k got.length with hlt | hge
  · have := h.past k x hx hlt
    omega
  · have := h.next k x hx hge
    omega

/-- What is below the counter was accepted. -/
theorem mem_of_lt (hx : x ∈ theirs) (hlt : x.1 < cur) : x.2 ∈ got := by
  obtain ⟨k, hk⟩ := mem_iff_getElem?.1 hx
  have hk' : k < got.length := by
    by_contra hge
    have := h.next k x hk (Nat.not_lt.1 hge)
    omega
  obtain ⟨tl, hr⟩ := h.accepted
  have hat : (theirs.map Prod.snd)[k]? = some x.2 := by rw [getElem?_map, hk, Option.map_some]
  rw [← hr, getElem?_append_left hk'] at hat
  exact mem_of_getElem? hat

/-- The party accepts what has the number of its counter. -/
theorem accept (hx : x ∈ theirs) (hnx : x.1 = cur) : InTurn mine theirs (got ++ [x.2]) (cur + 1) := by
  obtain ⟨k, hk⟩ := mem_iff_getElem?.1 hx
  obtain rfl := h.index_eq hk hnx
  refine ⟨?_, by rw [h.cursor_eq, length_append]; rfl, fun j y hy hlt => ?_, fun j y hy hge => ?_⟩
  · obtain ⟨tl, hr⟩ := h.accepted
    have hl : (theirs.map Prod.snd)[got.length]? = some x.2 := by rw [getElem?_map, hk, Option.map_some]
    rw [← hr, getElem?_append_right (Nat.le_refl _), Nat.sub_self] at hl
    cases tl with
    | nil => simp at hl
    | cons y tl =>
      obtain rfl : y = x.2 := by simpa using hl
      exact ⟨tl, by simpa using hr⟩
  · rw [length_append, length_singleton] at hlt
    rcases Nat.lt_or_ge j got.length with ho | hnew
    · exact Nat.lt_succ_of_lt (h.past j y hy ho)
    · have := h.next j y hy hnew
      omega
  · rw [length_append, length_singleton] at hge ⊢
    have := h.next j y hy (by omega)
    omega

/-- The party sends, when it has accepted everything. -/
theorem send (ht : got.length = theirs.length) : InTurn (mine + 1) theirs got (cur + 1) := by
  refine ⟨h.accepted, by rw [h.cursor_eq]; omega, fun k x hx hlt => Nat.lt_succ_of_lt (h.past k x hx hlt), fun k x hx hge => ?_⟩
  have hb := (List.getElem?_eq_some_iff.1 hx).1
  omega

/-- The other party sends, when it has accepted everything. -/
theorem receive (x : ℕ × α) (hn : x.1 = 1 + theirs.length + mine) : InTurn mine (theirs ++ [x]) got cur := by
  have hle := h.length_le
  have ho {k : ℕ} {y : ℕ × α} (hy : (theirs ++ [x])[k]? = some y) : theirs[k]? = some y ∨ k = theirs.length ∧ y = x := by
    rcases Nat.lt_or_ge k theirs.length with hlt | hge
    · rw [getElem?_append_left hlt] at hy
      exact .inl hy
    · rw [getElem?_append_right hge] at hy
      obtain ⟨hb, hy⟩ := List.getElem?_eq_some_iff.1 hy
      have hk : k = theirs.length := by
        rw [length_singleton] at hb
        omega
      exact .inr ⟨hk, by rw [← hy]; simp⟩
  refine ⟨?_, h.cursor_eq, fun k y hy hlt => ?_, fun k y hy hge => ?_⟩
  · rw [map_append]
    exact h.accepted.trans (prefix_append _ _)
  · rcases ho hy with hy | ⟨rfl, -⟩
    · exact h.past k y hy hlt
    · omega
  · rcases ho hy with hy | ⟨rfl, rfl⟩
    · exact h.next k y hy hge
    · rw [hn, h.cursor_eq]
      omega

end

end InTurn

end Libft
