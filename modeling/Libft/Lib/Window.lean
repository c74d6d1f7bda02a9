import Mathlib.Data.Set.Insert
import Mathlib.Data.Nat.Notation

/-!
# A sliding window over a set of numbers

A set of numbers that only grows, of which a machine keeps the largest member and a bitmap of the `w` numbers that end there.
`Tracks` says that a window describes a set; `accepts` is then membership as far as the window reaches (`accepts_iff`), and
`record` describes the set with one member more (`Tracks.record`).
-/

namespace Libft

open Set

/-- The largest number seen and the marks of the `w` numbers below and at it: bit `d` marks `highest - d`. -/
structure Window (w : ℕ) where
  seen : Bool
  highest : ℕ
  bits : BitVec w

namespace Window

variable {w : ℕ} {W : Window w} {S : Set ℕ}

/-- The window of the empty set. -/
def empty : Window w := ⟨false, 0, 0⟩

/-- Whether a number counts as new: nothing was seen, it is above the largest, or it is in reach and not marked. -/
def accepts (W : Window w) (n : ℕ) : Bool :=
  if W.seen = false then true
  else if W.highest < n then true
  else if w ≤ W.highest - n then false
  else !W.bits.getLsbD (W.highest - n)

/-- The window with one number more. -/
def record (W : Window w) (n : ℕ) : Window w :=
  if W.seen = false then ⟨true, n, 1#w⟩
  else if W.highest < n then
    ⟨true, n, if w ≤ n - W.highest then 1#w else (W.bits <<< (n - W.highest)) ||| 1#w⟩
  else if W.highest - n < w then { W with bits := W.bits ||| (1#w <<< (W.highest - n)) }
  else W

/-- A window describes a set: it has seen something when the set has a member, `highest` is then the largest member, and the
marks in reach are the members in reach. -/
structure Tracks (W : Window w) (S : Set ℕ) : Prop where
  seen : W.seen = true ↔ S.Nonempty
  mem : W.seen = true → W.highest ∈ S
  le : ∀ n ∈ S, n ≤ W.highest
  bit : ∀ n ≤ W.highest, W.highest - n < w → (W.bits.getLsbD (W.highest - n) = true ↔ n ∈ S)

/-- A fresh window has seen nothing. -/
theorem tracks_empty : Tracks (empty : Window w) ∅ where
  seen := by simp [empty]
  mem := by simp [empty]
  le := by simp
  bit := by simp [empty]

/-- A window that has seen nothing describes the empty set. -/
theorem Tracks.eq_empty (h : Tracks W S) (hs : W.seen = false) : S = ∅ := by
  rw [eq_empty_iff_forall_notMem]
  intro n hn
  have := h.seen.2 ⟨n, hn⟩
  rw [hs] at this
  cases this

/-- The window accepts exactly the numbers that are not in the set and that it reaches: every member is below the number plus
the width. -/
theorem accepts_iff (h : Tracks W S) (hw : 0 < w) (n : ℕ) : W.accepts n = true ↔ n ∉ S ∧ ∀ m ∈ S, m < n + w := by
  unfold accepts
  by_cases hs : W.seen = false
  · simp [hs, h.eq_empty hs]
  have hsn : W.seen = true := by simpa using hs
  rw [if_neg hs]
  by_cases hlt : W.highest < n
  · rw [if_pos hlt]
    refine iff_of_true rfl ⟨fun hn => ?_, fun m hm => ?_⟩
    · have := h.le n hn
      omega
    · have := h.le m hm
      omega
  rw [if_neg hlt]
  by_cases hfar : w ≤ W.highest - n
  · rw [if_pos hfar]
    refine iff_of_false (by simp) fun hn => ?_
    have := hn.2 _ (h.mem hsn)
    omega
  rw [if_neg hfar, Bool.not_eq_true', ← Bool.not_eq_true, h.bit n (by omega) (by omega)]
  refine ⟨fun hn => ⟨hn, fun m hm => ?_⟩, fun hn => hn.1⟩
  have := h.le m hm
  omega

/-- The bits of a number that is one: the lowest alone. -/
theorem getLsbD_one (hw : 0 < w) (i : ℕ) : (1#w).getLsbD i = decide (i = 0) := by
  rw [BitVec.getLsbD_one]
  by_cases hi : i = 0
  · simp [hi, hw]
  · simp [hi]

/-- Recording a number describes the set with that number. -/
theorem Tracks.record (h : Tracks W S) (hw : 0 < w) (n : ℕ) : Tracks (W.record n) (insert n S) := by
  unfold Window.record
  by_cases hs : W.seen = false
  · rw [if_pos hs, h.eq_empty hs]
    refine ⟨by simp, by simp, by simp, fun m hm hd => ?_⟩
    simp only at hm hd
    simp only [getLsbD_one hw, decide_eq_true_eq, mem_insert_iff, mem_empty_iff_false, or_false]
    omega
  have hsn : W.seen = true := by simpa using hs
  rw [if_neg hs]
  by_cases hlt : W.highest < n
  · rw [if_pos hlt]
    refine ⟨by simp, by simp, fun m hm => ?_, fun m hm hd => ?_⟩
    · rcases mem_insert_iff.1 hm with rfl | hm
      · exact Nat.le_refl _
      · exact Nat.le_of_lt (Nat.lt_of_le_of_lt (h.le m hm) hlt)
    · simp only at hm hd ⊢
      rw [mem_insert_iff]
      by_cases hmn : m = n
      · subst hmn
        simp only [Nat.sub_self, true_or, iff_true]
        split
        · simp [getLsbD_one hw]
        · simp [getLsbD_one hw]
      · have hne : n - m ≠ 0 := by omega
        simp only [hmn, false_or]
        split
        · -- the window has moved past everything it had marked
          rename_i hf
          simp only [getLsbD_one hw, decide_eq_true_eq]
          refine iff_of_false hne fun hmS => ?_
          have := h.le m hmS
          omega
        · rename_i hnr
          rw [BitVec.getLsbD_or, getLsbD_one hw, BitVec.getLsbD_shiftLeft]
          simp only [hne, decide_false, Bool.or_false]
          by_cases hmh : m ≤ W.highest
          · have he : n - m - (n - W.highest) = W.highest - m := by omega
            have hlo : ¬n - m < n - W.highest := by omega
            rw [he]
            simp only [hd, hlo, decide_true, decide_false, Bool.not_false, Bool.true_and]
            exact h.bit m hmh (by omega)
          · have hlo : n - m < n - W.highest := by omega
            simp only [hlo, decide_true, Bool.not_true, Bool.and_false, Bool.false_and]
            refine iff_of_false (by simp) fun hmS => ?_
            have := h.le m hmS
            omega
  rw [if_neg hlt]
  have hle : ∀ m ∈ insert n S, m ≤ W.highest := by
    intro m hm
    rcases mem_insert_iff.1 hm with rfl | hm
    · omega
    · exact h.le m hm
  by_cases hnr : W.highest - n < w
  · rw [if_pos hnr]
    refine ⟨by simp [hsn], fun _ => mem_insert_of_mem _ (h.mem hsn), hle, fun m hm hd => ?_⟩
    simp only at hm hd ⊢
    rw [BitVec.getLsbD_or, BitVec.getLsbD_shiftLeft, getLsbD_one hw, Bool.or_eq_true, h.bit m hm hd, mem_insert_iff]
    simp only [hd, decide_true, Bool.true_and, Bool.and_eq_true, Bool.not_eq_true', decide_eq_false_iff_not, decide_eq_true_eq]
    have : (¬W.highest - m < W.highest - n ∧ W.highest - m - (W.highest - n) = 0) ↔ m = n := by omega
    rw [this]
    exact or_comm
  · rw [if_neg hnr]
    refine ⟨by simp [hsn], fun _ => mem_insert_of_mem _ (h.mem hsn), hle, fun m hm hd => ?_⟩
    rw [h.bit m hm hd, mem_insert_iff]
    have hmn : m ≠ n := by omega
    simp [hmn]

end Window

end Libft
