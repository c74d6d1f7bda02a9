import Libft.SCMA.Lemmas.Blocks

/-!
# When an allocation enlarges the heap

An allocation that finds no span compacts if this is called for, and then the used part has no holes. But not every hole calls for it: the
last block made smaller leaves the free spans behind it where they are, and a block that takes one of them leaves a hole before itself.
While there is nothing but such holes, the heap is enlarged although the blocks would fit into it.
-/

namespace Libft.SCMA

open Book Scma

variable {s : Scma} {l f : List ℕ} {n : ℕ} {m : Memory}

/-- The heap grows when the request is beyond it, below the largest size, and there is memory. -/
theorem ensureCapacity_grows_iff (s : Scma) (n : ℕ) (m : Memory) :
    s.book.heapCapacity < ((s.ensureCapacity n m).getD s).book.heapCapacity ↔
      s.book.heapCapacity < n ∧ n < sizeMax ∧ m.heap.isSome := by
  unfold Scma.ensureCapacity
  split
  · rename_i hm
    simp [not_lt.mpr hm]
  · rename_i hm
    split
    · rename_i hle
      simp [not_lt.mpr hle]
    · rename_i hlt
      have hg : grownCapacity n n (if s.book.heapCapacity = 0 then n else s.book.heapCapacity) = n := by
        apply grownCapacity_eq <;> split <;> omega
      simp only [hg]
      rw [if_neg (by omega)]
      cases m.heap with
      | none => simp
      | some garbage => simp [not_le.mp hlt, not_le.mp hm]

theorem linkBlockAtTail_capacity (b : Book) (i : ℕ) : (b.linkBlockAtTail i).heapCapacity = b.heapCapacity := by
  unfold linkBlockAtTail
  split
  · rfl
  · split
    · rfl
    · split <;> rfl

/-- An allocation behind the used part changes the capacity only by growing the heap. -/
theorem Scma.Good.capacity_allocateAtEnd (h : s.Good l f) (req : ℕ) :
    (s.allocateAtEnd n req m).1.book.heapCapacity = ((s.ensureCapacity req m).getD s).book.heapCapacity := by
  unfold Scma.allocateAtEnd
  cases he : s.ensureCapacity req m with
  | none => rfl
  | some s₁ =>
    obtain ⟨hg, -⟩ := h.ensureCapacity (p := fun _ => True) he
    obtain ⟨f', ht, -⟩ := hg.sound.discardFrom s₁.book.usedSize
    have hd := ht.same.capacity
    simp only [Option.getD_some]
    cases htbl : (s₁.book.discardFreeSpansFrom s₁.book.usedSize).ensureBlockCapacity (s₁.book.blockCount + 1) m.table with
    | none => exact hd
    | some b =>
      obtain ⟨c, rfl, -⟩ := ensureBlockCapacity_spec htbl
      exact (linkBlockAtTail_capacity ..).trans hd

/-- There is room for the block among the others, but all of it in holes that do not call for a compaction. -/
structure Wasteful (s : Scma) (n : ℕ) (m : Memory) : Prop where
  pos : 0 < n
  unspanned : (s.book.takeFreeSpan n m.table).2 = (.success, none)
  uncalled : s.book.compactionNeeded = false
  fits : s.book.liveSize + n ≤ s.book.heapCapacity
  behind : s.book.heapCapacity < s.book.usedSize + n
  memory : s.book.usedSize + n < sizeMax ∧ m.heap.isSome

/-- After every session: an allocation enlarges the heap for want of room only, unless it is wasteful. -/
theorem run_enlarges_iff (capacity : UInt64) (garbage : ℕ → UInt8) (calls : List (Call × Memory)) (n : ℕ) (m : Memory) :
    let s := ((initialized capacity garbage).run calls).1
    (s.book.heapCapacity < (s.allocate n m).1.book.heapCapacity → s.book.heapCapacity < s.book.liveSize + n) ↔ ¬Wasteful s n m := by
  intro s
  obtain ⟨l, f, h⟩ : ∃ l f, s.Good l f := (good_initialized capacity garbage).run calls
  constructor
  · rintro hf hw
    obtain ⟨e, hno⟩ : ∃ e, s.book.takeFreeSpan n m.table = (s.book, e, none) := by
      rcases h.sound.takeFree hw.pos m.table with hno | ⟨b, i, f', hsm, -⟩
      · exact hno
      · cases hsm ▸ hw.unspanned
    cases hno ▸ hw.unspanned
    obtain ⟨s₁, heq, -, ⟨hnd, -⟩ | rfl⟩ := h.allocate_eq hw.pos (by have := hw.memory.1; unfold sizeMax at this; omega) hno
    · exact Bool.false_ne_true (hw.uncalled.symm.trans hnd)
    · rw [heq, h.capacity_allocateAtEnd, ensureCapacity_grows_iff] at hf
      exact absurd (hf ⟨hw.behind, hw.memory⟩) (not_lt.mpr hw.fits)
  · intro hw hg
    rcases h.allocate_cases n m with heq | ⟨b, i, f', ht, heq⟩ | ⟨hn, hm, hno⟩
    · rw [heq] at hg
      exact absurd hg (lt_irrefl _)
    · rw [heq] at hg
      exact absurd (hg.trans_eq ((linkBlockAtTail_capacity ..).trans ht.same.capacity)) (lt_irrefl _)
    · obtain ⟨s₁, heq, hnd, ⟨-, hc⟩ | hs⟩ := h.allocate_eq hn hm hno
      · rw [heq, hc.good.capacity_allocateAtEnd, ← hc.capacity, ensureCapacity_grows_iff, hc.capacity] at hg
        exact hg.1.trans_le (Nat.add_le_add_right hc.packed n)
      · subst hs
        rw [heq, h.capacity_allocateAtEnd, ensureCapacity_grows_iff] at hg
        by_contra hfits
        exact hw ⟨hn, by rw [hno], hnd, not_lt.mp hfits, hg.1, hg.2⟩

/-- The last block of a heap of 30 bytes is made smaller, and the span behind it is taken. -/
theorem run_enlarges_holes :
    let memory : Memory := ⟨some fun _ => 0, true⟩
    let calls := [.allocate 10, .allocate 20, .free ⟨1, 1⟩, .allocate 14, .resize ⟨1, 3⟩ 2, .allocate 6].map fun c => (c, memory)
    let s := ((initialized 30 fun _ => 0).run calls).1
    s.book.heapCapacity = 30 ∧ s.book.liveSize + 10 = 28 ∧ (s.allocate 10 memory).1.book.heapCapacity = 40 := by
  decide +kernel

end Libft.SCMA
