import Libft.SCMA.Lemmas.Alike
import Libft.SCMA.Lemmas.Contents

/-!
# Nothing of a block is seen through another one

Every byte outside the live blocks that has ever been written to is zero. In two sessions that differ only in the bytes that are written,
all bytes of a block that have not been written through its handle are the same.
-/

namespace Libft.SCMA

open List Function Scma

/-- Which bytes of the blocks have been written through their handles, after one more call. -/
def writtenStep (w : Handle → ℕ → Bool) : Call × Result → Handle → ℕ → Bool
  | (.allocate _, .handle h) => if h = invalidHandle then w else update w h fun _ => false
  | (.resize h n, .code .success) => update w h fun k => w h k && decide (k < n)
  | (.write h o source, .code .success) =>
    update w h fun k => w h k || decide (o ≤ k ∧ k < o + (source.getD []).length)
  | _ => w

/-- Which bytes of the blocks have been written through their handles. -/
def written (history : List (Call × Result)) : Handle → ℕ → Bool := history.foldl writtenStep fun _ _ => false

/-- The cells know whether they have been written. -/
def Marked (v : Contents) (w : Handle → ℕ → Bool) : Prop := ∀ h cells, v h = some cells → ∀ k, w h k = (cells[k]?).any Cell.data

variable {w : Handle → ℕ → Bool} {v : Contents} {cells : List Cell} {s : Scma} {l f : List ℕ}

/-- Updating a handle keeps the marks right. -/
theorem Marked.update (h : Marked v w) {hd : Handle} {g : ℕ → Bool}
    (hg : ∀ k, g k = (cells[k]?).any Cell.data) : Marked (update v hd (some cells)) (update w hd g) := by
  intro h' c' hc' k
  by_cases heq : h' = hd
  · subst heq
    rw [update_self] at hc' ⊢
    cases hc'
    exact hg k
  · rw [update_of_ne heq] at hc' ⊢
    exact h h' c' hc' k

/-- Fresh cells hold no data. -/
theorem any_data_of_forall (hd : ∀ c ∈ cells, c.data = false) (k : ℕ) : (cells[k]?).any Cell.data = false := by
  cases hk : cells[k]? with
  | none => rfl
  | some c => exact hd c (mem_of_getElem? hk)

/-- A call marks what it writes. -/
theorem Marked.step {v' : Contents} {c : Call} {r : Result} (h : Marked v w) (he : Effect v c r v') : Marked v' (writtenStep w (c, r)) := by
  cases he with
  | allocateFails => exact h
  | allocates hv hf hp hn hdt =>
    rw [writtenStep, if_neg hv]
    exact h.update fun k => (any_data_of_forall hdt k).symm
  | @frees hd cells hl =>
    intro h' c' hc' k
    by_cases heq : h' = hd
    · rw [heq, update_self] at hc'
      cases hc'
    · rw [update_of_ne heq] at hc'
      exact h h' c' hc' k
  | @resizes hd n cells fresh hp hl hn hdt =>
    refine h.update fun k => ?_
    rw [h hd cells hl k]
    by_cases hk : k < (cells.take n).length
    · rw [getElem?_append_left hk]
      rw [length_take] at hk
      rw [getElem?_take_of_lt (by omega), decide_eq_true (by omega), Bool.and_true]
    · rw [getElem?_append_right (by omega), any_data_of_forall hdt]
      rw [length_take] at hk
      by_cases hkn : k < n
      · rw [getElem?_eq_none (by omega)]
        rfl
      · rw [decide_eq_false hkn, Bool.and_false]
  | @writes hd o sr cells hl hrg =>
    refine h.update fun k => ?_
    have ht : (cells.take o).length = o := by simp; omega
    have hm : (cells.take o ++ sr.map (⟨·, true⟩ : UInt8 → Cell)).length = o + sr.length := by simp; omega
    rw [h hd cells hl k, Option.getD_some]
    by_cases hk : k < o
    · rw [getElem?_append_left (by omega), getElem?_append_left (by omega), getElem?_take_of_lt hk,
        decide_eq_false (by omega), Bool.or_false]
    · by_cases hk' : k < o + sr.length
      · rw [getElem?_append_left (by omega), getElem?_append_right (by omega), ht, decide_eq_true ⟨by omega, hk'⟩,
          Bool.or_true, getElem?_map, getElem?_eq_getElem (by omega)]
        rfl
      · rw [getElem?_append_right (by omega), hm, getElem?_drop, decide_eq_false (by omega), Bool.or_false,
          show o + sr.length + (k - (o + sr.length)) = k by omega]
  | resizeFails hl hg he =>
    rcases he with rfl | rfl <;> exact h
  | _ => exact h

/-- After every session the marks are those of the writes. -/
theorem Marked.run (hs : s.Good l f) (h : Marked s.cells w)
    (cs : List (Call × Memory)) : Marked (s.run cs).1.cells ((s.history cs).foldl writtenStep w) := by
  induction cs generalizing s l f w with
  | nil => exact h
  | cons c cs ih =>
    obtain ⟨l', f', hs'⟩ := hs.call c.1 c.2
    exact ih hs' (h.step (hs.effect c.1 c.2))

/-- What is known of a session `s`, and of another session `s'` with other bytes to write: outside the live blocks every byte that has
been written to is zero, and the bytes that have not been written through a handle are the same in both. -/
structure Wiped (s s' : Scma) (w : Handle → ℕ → Bool) : Prop where
  zero : ∀ x, s.touched x = true → (∀ i, s.book.Live i → ¬s.book.Inside i x) → (s.heap x).value = 0
  read : ∀ h o n destination, (s.read h o n destination).1 = (s'.read h o n destination).1 ∧
    ∀ k, w h (o + k) = false → (s.read h o n destination).2[k]? = (s'.read h o n destination).2[k]?

/-- Allocators that are alike differ where the marks are set only. -/
theorem Scma.Alike.wiped {s' : Scma} (hs : s.Good l f) (ha : s.Alike s') (hmr : Marked s.cells w) : Wiped s s' w where
  zero x ht hout := (hs.clean.outside x fun i hi => hout i (hs.sound.live hi)).2 ht
  read h o n d := by
    unfold read
    rw [ha.validateRequest, ← ha.book]
    rcases s.validateRequest_cases h d o n with ⟨he, _⟩ | ⟨he, _⟩ | ⟨he, _⟩ | ⟨he, hv, _, hrg⟩
    · rw [he]
      exact ⟨rfl, fun _ _ => rfl⟩
    · rw [he]
      exact ⟨rfl, fun _ _ => rfl⟩
    · rw [he]
      exact ⟨rfl, fun _ _ => rfl⟩
    · rw [he]
      refine ⟨rfl, fun k hk => ?_⟩
      simp only [getElem?_map]
      by_cases hkn : k < n
      · rw [getElem?_range hkn]
        refine congrArg some ((ha.cells _).2 ?_)
        have hma := hmr h _ (cells_of_valid hv) (o + k)
        rw [hk, getElem?_eq_getElem (by rw [length_blockCells]; omega), getElem_blockCells, ← Nat.add_assoc] at hma
        exact hma.symm
      · rw [getElem?_eq_none (by simpa using hkn)]
        rfl

end Libft.SCMA
