import Libft.SCMA.Lemmas.Blocks

/-!
# The bookkeeping is exact

After every session: the live list, forwards and backwards, is the list of the records in use; the live size is the sum of their sizes;
the used size is the end of the last block; and no span of the free list lies over a live block.
-/

namespace Libft.SCMA

/-- The lists and the counters tell what the blocks are. -/
structure Book.Exact (b : Book) : Prop where
  /-- The live list is linked in both directions, has exactly the records in use, and the live size is the sum of their sizes. -/
  live : ∃ l, b.liveList.Is l ∧ (∀ i, i ∈ l ↔ b.Live i) ∧ b.liveSize = (l.map b.size).sum
  /-- The used size is the largest end of a live block, or zero if there is none. -/
  used : (∀ i, b.Live i → b.blockEnd i ≤ b.usedSize) ∧
    ((∃ i, b.Live i ∧ b.blockEnd i = b.usedSize) ∨ b.usedSize = 0 ∧ ∀ i, ¬b.Live i)
  used_le : b.usedSize ≤ b.heapCapacity
  /-- The spans of the free list keep apart from the live blocks. -/
  free : ∃ f, b.freeList.Is f ∧ ∀ i ∈ f, b.blockEnd i ≤ b.heapCapacity ∧ ∀ j, b.Live j → Apart b.offset b.size i j

/-- Sound books are exact. -/
theorem Book.Sound.exact {b : Book} {l f : List ℕ} (h : b.Sound l f) : b.Exact where
  live := ⟨l, h.list, h.mem_list, h.liveSize⟩
  used := by
    refine ⟨fun i hi => h.used_le i (h.mem hi), ?_⟩
    rcases h.used_eq with hz | ⟨i, hi, heq⟩
    · refine Or.inr ⟨hz, fun i hi => ?_⟩
      have hm := h.mem hi
      have hle := h.used_le i hm
      have hp := h.size_pos hm
      rw [blockEnd] at hle
      omega
    · exact Or.inl ⟨i, h.live hi, heq⟩
  used_le := h.used_le_capacity
  free := ⟨f, h.free, fun i hi => ⟨h.free_end_le hi, fun j hj => by
    have hm := h.mem hj
    exact h.spread.apart i (List.mem_append_right l hi) j (List.mem_append_left f hm) fun heq => h.not_mem_free hm (heq ▸ hi)⟩⟩

/-- After every session, with any failures of memory, the lists, the counters and the spans are exact. -/
theorem run_book_exact (capacity : UInt64) (garbage : ℕ → UInt8) (calls : List (Call × Memory)) :
    ((initialized capacity garbage).run calls).1.book.Exact := by
  obtain ⟨l, f, hg⟩ := (Scma.good_initialized capacity garbage).run calls
  exact hg.sound.exact

end Libft.SCMA
