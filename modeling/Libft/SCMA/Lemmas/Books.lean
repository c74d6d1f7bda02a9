import Libft.Lib.Spans
import Libft.SCMA.Allocator
import Mathlib.Data.List.TakeWhile

/-!
# The bookkeeping of the allocator

`Placed` says that the two lists are linked as they should be, that the live list has the records in use, and that the spans of live and
free records keep apart in the heap; in a `Sound` book the counters are right too. The functions on the free list leave the live records
alone: `Thins` is what is common to those that only take spans out of it.
-/

namespace Libft.SCMA

open Function List Or Nat

/-- The loop ends with what is needed. -/
theorem grownCapacity_eq {req cap n : ℕ} (hp : 0 < cap) (hle : cap ≤ req)
    (hn : req - cap ≤ n) : grownCapacity req n cap = req := by
  induction n generalizing cap with
  | zero =>
    rw [grownCapacity]
    omega
  | succ n ih =>
    rw [grownCapacity]
    split
    · split
      · exact ih (by omega) le_rfl (by omega)
      · split
        · exact ih (by omega) le_rfl (by omega)
        · exact ih (by omega) (by omega) (by omega)
    · omega

namespace Book

/-- A record that is in use. -/
def Live (b : Book) (i : ℕ) : Prop := i < b.blockCount ∧ b.inUse i = true

/-- The lists and the spans are in order: the live ones of one list, the free ones of the other. -/
structure Placed (b : Book) (l f : List ℕ) : Prop where
  list : b.liveList.Is l
  free : b.freeList.Is f
  mem_list : ∀ i, i ∈ l ↔ b.Live i
  idle : ∀ i ∈ f, i < b.blockCount ∧ b.inUse i = false
  spread : Spread b.offset b.size b.heapCapacity (l ++ f)
  capacity : b.heapCapacity ≤ sizeMax
  table : b.blockCount ≤ b.blockCapacity ∧ b.blockCapacity ≤ sizeMax / blockBytes
  generation : ∀ i < b.blockCount, 0 < b.generation i ∧ b.generation i < sizeMax
  cursor : b.compactionCursor = none

/-- The counters are right, too. -/
structure Sound (b : Book) (l f : List ℕ) : Prop extends Placed b l f where
  used_le : ∀ i ∈ l, b.blockEnd i ≤ b.usedSize
  used_eq : b.usedSize = 0 ∨ ∃ i ∈ l, b.blockEnd i = b.usedSize
  liveSize : b.liveSize = (l.map b.size).sum

variable {b b' b'' : Book} {l f f' f'' : List ℕ} {i j : ℕ} {n : ℕ} {tl l₁ l₂ : List ℕ}

namespace Placed

section

variable (h : b.Placed l f)

include h

theorem live (hi : i ∈ l) : b.Live i := (h.mem_list i).mp hi

theorem mem (hi : b.Live i) : i ∈ l := (h.mem_list i).mpr hi

theorem not_mem_free (hi : i ∈ l) : i ∉ f := fun hf =>
  Bool.false_ne_true ((h.idle i hf).2.symm.trans (h.live hi).2)

/-- A free record is not a live block. -/
theorem not_live_of_free (hi : i ∈ f) : ¬(b.blockCount ≤ i ∨ b.inUse i = true) := fun hc =>
  hc.elim (not_le.mpr (h.idle i hi).1) fun hu => Bool.false_ne_true ((h.idle i hi).2.symm.trans hu)

theorem free_length : f.length ≤ b.blockCount := by
  have hs : f ⊆ List.range b.blockCount := fun i hi => mem_range.mpr (h.idle i hi).1
  simpa using (subperm_of_subset h.free.2 hs).length_le

/-- Following the free list gives the free blocks. -/
theorem walk_free : follow b.freeList.next b.blockCount b.freeList.first = f := follow_eq h.free.1 h.free_length

theorem freeWalk : b.freeWalk = f := by
  rw [Book.freeWalk, h.walk_free, takeWhile_eq_self_iff]
  exact fun i hi => decide_eq_true (h.idle i hi).1

theorem index_lt : b.blockCount < sizeMax :=
  (h.table.1.trans h.table.2).trans_lt (by decide)

theorem end_le (hi : i ∈ l) : b.blockEnd i ≤ b.heapCapacity := h.spread.le i (mem_append_left f hi)

theorem free_end_le (hi : i ∈ f) : b.blockEnd i ≤ b.heapCapacity := h.spread.le i (mem_append_right l hi)

theorem size_pos (hi : i ∈ l) : 0 < b.size i := h.spread.pos i (mem_append_left f hi)

end

end Placed

/-- A bound on every block bounds the used part, which ends with a block. -/
theorem le_of_reached {m : ℕ} (hr : m = 0 ∨ ∃ i ∈ l, b.blockEnd i = m) (hle : ∀ i ∈ l, b.blockEnd i ≤ n) : m ≤ n := by
  rcases hr with rfl | ⟨i, hi, rfl⟩
  · exact zero_le _
  · exact hle i hi

theorem Sound.used_le_capacity (h : b.Sound l f) : b.usedSize ≤ b.heapCapacity := le_of_reached h.used_eq fun _ hi => h.end_le hi

/-- A live block starts within the used part. -/
theorem Sound.offset_lt_used (h : b.Sound l f) (hi : i ∈ l) : b.offset i < b.usedSize :=
  (Nat.lt_add_of_pos_right (h.size_pos hi)).trans_le (h.used_le i hi)

theorem Sound.offset_lt (h : b.Sound l f) (hi : i ∈ l) : b.offset i < sizeMax :=
  (h.offset_lt_used hi).trans_le (h.used_le_capacity.trans h.capacity)

theorem Placed.eq_nil (h : b.Placed l f) (hc : b.blockCount = 0) : l = [] := eq_nil_iff_forall_not_mem.mpr fun i hi => by
  have := (h.live hi).1
  omega

/-- The live blocks keep apart below the end of the used part. -/
theorem Sound.spread_live (h : b.Sound l f) : Spread b.offset b.size b.usedSize l where
  pos _ hi := h.size_pos hi
  le i hi := h.used_le i hi
  apart := (h.spread.subset (subset_append_left l f)).apart

/-- Live bytes are within the used part, since blocks do not overlap. -/
theorem Sound.liveSize_le (h : b.Sound l f) : b.liveSize ≤ b.usedSize := by
  rw [h.liveSize]
  exact h.spread_live.sum_le h.list.2.2

/-- A book that has the live blocks of a sound one in their places is sound. -/
theorem Sound.of_place (hb : b.Sound l f) (hb' : b'.Placed l f') (hp : ∀ i ∈ l, b'.offset i = b.offset i ∧ b'.size i = b.size i)
    (hu : b'.usedSize = b.usedSize) (hl : b'.liveSize = b.liveSize) : b'.Sound l f' := by
  have he : ∀ i ∈ l, b'.blockEnd i = b.blockEnd i := fun i hi => by rw [blockEnd, (hp i hi).1, (hp i hi).2, blockEnd]
  refine ⟨hb', fun i hi => ?_, ?_, ?_⟩
  · rw [he i hi, hu]
    exact hb.used_le i hi
  · rw [hu]
    refine hb.used_eq.imp_right ?_
    rintro ⟨i, hi, heq⟩
    exact ⟨i, hi, (he i hi).trans heq⟩
  · rw [hl, hb.liveSize, map_congr_left fun i hi => (hp i hi).2]

/-! ## The end of the used part -/

/-- The loop over the blocks finds the greatest end. -/
theorem maximumEnd_spec (b : Book) (hle : ∀ i, b.Live i → b.blockEnd i ≤ sizeMax) :
    (∀ i, b.Live i → b.blockEnd i ≤ b.maximumEnd) ∧ (b.maximumEnd = 0 ∨ ∃ i, b.Live i ∧ b.blockEnd i = b.maximumEnd) := by
  have hf : ∀ n ≤ b.blockCount, ∀ m, m = (List.range n).foldl
      (fun m i => if b.inUse i = true ∧ b.size i ≤ sizeMax - b.offset i then max m (b.blockEnd i) else m) 0 →
      (∀ i < n, b.inUse i = true → b.blockEnd i ≤ m) ∧ (m = 0 ∨ ∃ i, b.Live i ∧ b.blockEnd i = m) := by
    intro n
    induction n with
    | zero => exact fun _ m hm => ⟨fun i hi => absurd hi (not_lt_zero i), inl hm⟩
    | succ n ih =>
      intro hn m hm
      obtain ⟨hb, hr⟩ := ih (le_of_succ_le hn) _ rfl
      rw [range_succ, foldl_concat] at hm
      have he : b.inUse n = true → b.size n ≤ sizeMax - b.offset n := fun hu => by
        have := hle n ⟨hn, hu⟩
        rw [blockEnd] at this
        omega
      split at hm
      · rename_i hc
        refine ⟨fun i hi hu => ?_, ?_⟩
        · rcases Nat.lt_succ_iff_lt_or_eq.mp hi with hi | rfl
          · exact (hb i hi hu).trans (hm ▸ le_max_left _ _)
          · exact hm ▸ le_max_right _ _
        · rcases max_choice ((List.range n).foldl _ 0) (b.blockEnd n) with hmax | hmax
          · rw [hm, hmax]
            exact hr
          · exact inr ⟨n, ⟨hn, hc.1⟩, (hm.trans hmax).symm⟩
      · rename_i hc
        rw [hm]
        refine ⟨fun i hi hu => ?_, hr⟩
        rcases Nat.lt_succ_iff_lt_or_eq.mp hi with hi | rfl
        · exact hb i hi hu
        · exact absurd ⟨hu, he hu⟩ hc
  obtain ⟨hb, hr⟩ := hf b.blockCount le_rfl _ rfl
  exact ⟨fun i hi => hb i hi.1 hi.2, hr⟩

/-- The greatest end is that of a block of the live list. -/
theorem Placed.maximumEnd (h : b.Placed l f) :
    (∀ i ∈ l, b.blockEnd i ≤ b.maximumEnd) ∧ (b.maximumEnd = 0 ∨ ∃ i ∈ l, b.blockEnd i = b.maximumEnd) := by
  obtain ⟨hle, hr⟩ := b.maximumEnd_spec fun i hi => (h.end_le (h.mem hi)).trans h.capacity
  refine ⟨fun i hi => hle i (h.live hi), hr.imp_right ?_⟩
  rintro ⟨i, hi, heq⟩
  exact ⟨i, h.mem hi, heq⟩

/-- After the end of the used part has been found again, the book is sound if the live size is right. -/
theorem Placed.recompute (h : b.Placed l f) (hs : n = (l.map b.size).sum) : Sound { b.recomputeUsedSize with liveSize := n } l f where
  __ := h
  used_le := h.maximumEnd.1
  used_eq := h.maximumEnd.2
  liveSize := hs

/-- In a sound book, nothing is new about the end of the used part. -/
theorem Sound.recompute_eq (h : b.Sound l f) : b.recomputeUsedSize = b := by
  have hm := h.toPlaced.maximumEnd
  have heq : b.maximumEnd = b.usedSize := le_antisymm (le_of_reached hm.2 h.used_le) (le_of_reached h.used_eq hm.1)
  rw [recomputeUsedSize, heq]

/-! ## Spans that leave the free list -/

/-- Some spans leave the free list. The records in use and those that are still in it keep their sizes. -/
def Thins (b b' : Book) (f f' : List ℕ) : Prop :=
  ∃ size freeList, b' = { b with size := size, freeList := freeList } ∧ freeList.Is f' ∧ f' ⊆ f ∧
    ∀ i, b.inUse i = true ∨ i ∈ f' → size i = b.size i

theorem Thins.refl (h : b.freeList.Is f) : Thins b b f f := ⟨b.size, b.freeList, rfl, h, fun _ hi => hi, fun _ _ => rfl⟩

section

variable (h : Thins b b' f f')

include h

/-- Free blocks can be dropped in two steps. -/
theorem Thins.trans (h' : Thins b' b'' f' f'') : Thins b b'' f f'' := by
  obtain ⟨size, fl, rfl, _, hb, hs⟩ := h
  obtain ⟨size', fl', rfl, hf', hb', hs'⟩ := h'
  refine ⟨size', fl', rfl, hf', fun i hi => hb (hb' hi), fun i hi => ?_⟩
  rcases hi with hi | hi
  · exact (hs' i (inl hi)).trans (hs i (inl hi))
  · exact (hs' i (inr hi)).trans (hs i (inr (hb' hi)))

/-- Dropping free blocks keeps the lists and the placement. -/
theorem Thins.placed (hb : b.Placed l f) : b'.Placed l f' := by
  obtain ⟨size, fl, rfl, hf, hsub, hs⟩ := h
  refine { hb with free := hf, idle := fun i hi => hb.idle i (hsub hi), spread := ?_ }
  refine (hb.spread.subset fun i hi => ?_).congr fun i hi => ⟨rfl, hs i ?_⟩
  · exact mem_append.mpr ((mem_append.mp hi).imp_right fun hi => hsub hi)
  · exact (mem_append.mp hi).imp_left fun hi => (hb.live hi).2

theorem Thins.size_eq (hi : b.inUse i = true ∨ i ∈ f') : b'.size i = b.size i := by
  obtain ⟨size, fl, rfl, _, _, hs⟩ := h
  exact hs i hi

theorem Thins.offset_eq : b'.offset = b.offset := by
  obtain ⟨size, fl, rfl, _⟩ := h
  rfl

theorem Thins.used_eq : b'.usedSize = b.usedSize := by
  obtain ⟨size, fl, rfl, _⟩ := h
  rfl

theorem Thins.sub : f' ⊆ f := by
  obtain ⟨_, _, _, _, hs, _⟩ := h
  exact hs

/-- The blocks that are left keep their ends. -/
theorem Thins.end_eq (hi : b.inUse i = true ∨ i ∈ f') : b'.blockEnd i = b.blockEnd i := by
  have hs := h.size_eq hi
  obtain ⟨size, fl, rfl, _⟩ := h
  exact congrArg (b.offset i + ·) hs

/-- Dropping free blocks keeps the books sound. -/
theorem Thins.sound (hb : b.Sound l f) : b'.Sound l f' := by
  have hp := h.placed hb.toPlaced
  obtain ⟨size, fl, rfl, _, _, hs⟩ := h
  exact hb.of_place hp (fun i hi => ⟨rfl, hs i (inl (hb.live hi).2)⟩) rfl rfl

end

/-- Taking a block off the free list erases it there. -/
theorem Placed.removeFree_is (hb : b.Placed l f) (i : ℕ) : (b.removeFreeBlock i).freeList.Is (f.erase i) := by
  simp only [removeFreeBlock, hb.freeWalk]
  exact hb.free.removeFrom

theorem Placed.thins_remove (hb : b.Placed l f) (i : ℕ) : Thins b (b.removeFreeBlock i) f (f.erase i) :=
  ⟨b.size, _, rfl, hb.removeFree_is i, erase_subset, fun _ _ => rfl⟩

/-- A discarded block is off the free list, with its size forgotten. -/
theorem Placed.thins_discard (hb : b.Placed l f) (hi : i ∈ f) : Thins b (b.discardFreeBlock i) f (f.erase i) := by
  rw [discardFreeBlock, if_neg (not_le.mpr (hb.idle i hi).1)]
  have hn : i ∉ f.erase i := hb.free.2.not_mem_erase
  have hr := hb.removeFree_is i
  refine ⟨_, _, rfl, ⟨hr.1.update hn, hr.2⟩, erase_subset, fun j hj => update_of_ne ?_ ..⟩
  rintro rfl
  exact hj.elim (fun hu => Bool.false_ne_true ((hb.idle j hi).2.symm.trans hu)) hn

/-- Spans of a list are discarded or not, one after the other; what decides is the book at that time. -/
theorem Placed.thins_foldl (p : Book → ℕ → Prop) [∀ b i, Decidable (p b i)] (hb : b.Placed l f) (hnd : tl.Nodup) (hsub : tl ⊆ f) :
    ∃ f', Thins b (tl.foldl (fun b i => if p b i then b.discardFreeBlock i else b) b) f f' ∧
      ∀ i ∈ tl, i ∈ f' → ∃ b1 f1, Thins b b1 f f1 ∧ i ∈ f1 ∧ ¬p b1 i := by
  induction tl generalizing b f with
  | nil => exact ⟨f, .refl hb.free, fun i hi => absurd hi not_mem_nil⟩
  | cons i tl ih =>
    rw [nodup_cons] at hnd
    have hi : i ∈ f := hsub mem_cons_self
    rw [foldl_cons]
    by_cases hp : p b i
    · rw [if_pos hp]
      have hs := hb.thins_discard hi
      obtain ⟨f', ht, hk⟩ := ih (hs.placed hb) hnd.2 fun j hj =>
        hb.free.2.mem_erase_iff.mpr ⟨fun heq => hnd.1 (heq ▸ hj), hsub (mem_cons_of_mem i hj)⟩
      refine ⟨f', hs.trans ht, fun j hj hjf => ?_⟩
      have hj' : j ∈ tl := by
        refine (mem_cons.mp hj).resolve_left fun heq => ?_
        exact hb.free.2.not_mem_erase (heq ▸ ht.sub hjf)
      obtain ⟨b1, f1, ht1, hj1, hp1⟩ := hk j hj' hjf
      exact ⟨b1, f1, hs.trans ht1, hj1, hp1⟩
    · rw [if_neg hp]
      obtain ⟨f', ht, hk⟩ := ih hb hnd.2 fun j hj => hsub (mem_cons_of_mem i hj)
      refine ⟨f', ht, fun j hj hjf => ?_⟩
      rcases mem_cons.mp hj with rfl | hj
      · exact ⟨b, f, .refl hb.free, hi, hp⟩
      · exact hk j hj hjf

/-- What is left in the free list ends before the offset. -/
theorem Placed.discardFrom (hb : b.Placed l f) (o : ℕ) : ∃ f', Thins b (b.discardFreeSpansFrom o) f f' ∧ ∀ i ∈ f', b.blockEnd i ≤ o := by
  unfold discardFreeSpansFrom
  rw [hb.freeWalk]
  obtain ⟨f', ht, hk⟩ := hb.thins_foldl (fun b i => o ≤ b.offset i ∨
    (0 < b.size i ∧ b.offset i ≤ sizeMax - b.size i ∧ o < b.blockEnd i)) hb.free.2 (fun _ hi => hi)
  refine ⟨f', ht, fun i hi => ?_⟩
  obtain ⟨b1, f1, ht1, hi1, hn⟩ := hk i (ht.sub hi) hi
  have hp := ht1.placed hb
  have he := (hp.free_end_le hi1).trans hp.capacity
  have hs := hp.spread.pos i (mem_append_right l hi1)
  have heq := ht1.end_eq (inr hi1)
  rw [not_or] at hn
  simp only [blockEnd] at he hn heq ⊢
  by_contra hlt
  exact hn.2 ⟨hs, by omega, by omega⟩

/-- No free span lies over a live block, so that there is nothing to reconcile. -/
theorem Placed.reconcile_eq (hb : b.Placed l f) : b.reconcileFreeSpans = b := by
  have hn : ∀ i ∈ f, b.freeSpanOverlapsLive i = false := by
    intro i hi
    have hp := hb.spread.pos i (mem_append_right l hi)
    have he := (hb.free_end_le hi).trans hb.capacity
    rw [blockEnd] at he
    simp only [freeSpanOverlapsLive, Bool.or_eq_false_iff, beq_eq_false_iff_ne, decide_eq_false_iff_not, any_eq_false]
    refine ⟨⟨by omega, by omega⟩, fun j hj => ?_⟩
    simp only [Bool.and_eq_true, decide_eq_true_eq]
    rintro ⟨⟨⟨hu, _⟩, hlt⟩, hl'⟩
    have hjl : j ∈ l := hb.mem ⟨mem_range.mp hj, hu⟩
    have hij : i ≠ j := fun heq => hb.not_mem_free hjl (heq ▸ hi)
    rcases hb.spread.apart i (mem_append_right l hi) j (mem_append_left f hjl) hij with hap | hap <;>
      simp only [blockEnd] at hlt hl' <;> omega
  unfold reconcileFreeSpans
  rw [hb.freeWalk]
  clear hb
  induction f with
  | nil => rfl
  | cons i f ih =>
    rw [foldl_cons, if_neg (by rw [hn i mem_cons_self]; exact Bool.false_ne_true)]
    exact ih (forall_mem_cons.mp hn).2

/-- Without any free span. -/
theorem thins_drop (b : Book) (f : List ℕ) : Thins b b.dropFreeSpans f [] := by
  refine ⟨_, _, rfl, ⟨rfl, nodup_nil⟩, nil_subset f, fun i hi => if_neg fun hc => ?_⟩
  exact hi.elim (fun hu => Bool.false_ne_true (hc.2.symm.trans hu)) not_mem_nil

/-! ## What stays the same -/

/-- The live blocks are the same, and in the same places. -/
structure Same (b b' : Book) : Prop where
  count : b.blockCount ≤ b'.blockCount
  capacity : b'.heapCapacity = b.heapCapacity
  live : ∀ i, b'.Live i ↔ b.Live i
  generation : ∀ i < b.blockCount, b'.generation i = b.generation i
  place : ∀ i, b.Live i → b'.offset i = b.offset i ∧ b'.size i = b.size i

theorem Same.trans (h : Same b b') (h' : Same b' b'') : Same b b'' where
  count := h.count.trans h'.count
  capacity := h'.capacity.trans h.capacity
  live i := (h'.live i).trans (h.live i)
  generation i hi := (h'.generation i (hi.trans_le h.count)).trans (h.generation i hi)
  place i hi :=
    have hi' := (h.live i).mpr hi
    ⟨(h'.place i hi').1.trans (h.place i hi).1, (h'.place i hi').2.trans (h.place i hi).2⟩

theorem Thins.same (h : Thins b b' f f') : Same b b' := by
  obtain ⟨size, fl, rfl, _, _, hs⟩ := h
  exact ⟨le_rfl, rfl, fun _ => Iff.rfl, fun _ _ => rfl, fun i hi => ⟨rfl, hs i (inl hi.2)⟩⟩

/-! ## Room for records -/

/-- Growing the table of blocks changes its capacity only. -/
theorem ensureBlockCapacity_spec {grows : Bool} (h : b.ensureBlockCapacity n grows = some b') :
    ∃ c, b' = { b with blockCapacity := c } ∧ n ≤ c ∧ (c = b.blockCapacity ∨ c ≤ sizeMax / blockBytes) := by
  unfold ensureBlockCapacity at h
  split at h
  · rename_i hle
    cases h
    exact ⟨b.blockCapacity, rfl, hle, inl rfl⟩
  · rename_i hlt
    have hg : grownCapacity n n (if b.blockCapacity = 0 then n else b.blockCapacity) = n := by
      apply grownCapacity_eq <;> split <;> omega
    simp only [hg] at h
    split at h
    · cases h
    rename_i hm
    rw [not_or] at hm
    split at h
    · cases h
      exact ⟨n, rfl, le_rfl, inr (not_lt.mp hm.2)⟩
    · cases h

/-! ## Taking a span -/

/-- The size of a record that has no span is of no matter. -/
theorem Sound.setSize (hb : b.Sound l f) (hi : i ∉ l ++ f) (n : ℕ) : Sound { b with size := update b.size i n } l f := by
  have hne : ∀ j ∈ l ++ f, update b.size i n j = b.size j := fun j hj =>
    update_of_ne (fun heq : j = i => hi (heq ▸ hj)) ..
  exact hb.of_place { hb with spread := hb.spread.congr fun j hj => ⟨rfl, hne j hj⟩ }
    (fun j hj => ⟨rfl, hne j (mem_append_left f hj)⟩) rfl rfl

/-- A span has been taken out of the free list. It is apart from all others, and in neither of the lists. -/
structure Taken (b b' : Book) (l f' : List ℕ) (i n : ℕ) : Prop where
  sound : b'.Sound l f'
  same : Same b b'
  lt : i < b.blockCount
  not_mem : i ∉ f'
  idle : b'.inUse i = false
  size_eq : b'.size i = n
  spread : Spread b'.offset b'.size b'.heapCapacity (i :: (l ++ f'))

theorem Sound.not_mem_live (hb : b.Sound l f) (hi : i ∈ f) : i ∉ l := fun hl => hb.not_mem_free hl hi

/-- A span of the right size is taken as it is. -/
theorem Sound.take_exact (hb : b.Sound l f) (hi : i ∈ f) : Taken b (b.removeFreeBlock i) l (f.erase i) i (b.size i) where
  sound := (hb.thins_remove i).sound hb
  same := (hb.thins_remove i).same
  lt := (hb.idle i hi).1
  not_mem := hb.free.2.not_mem_erase
  idle := (hb.idle i hi).2
  size_eq := rfl
  spread := hb.spread.subset fun j hj => by
    rcases mem_cons.mp hj with rfl | hj
    · exact mem_append_right l hi
    · exact mem_append.mpr ((mem_append.mp hj).imp_right fun hj => erase_subset hj)

/-- A span at the end of the used part, made larger. -/
theorem Sound.take_expanded (hb : b.Sound l f) (hi : i ∈ f) (hn : 0 < n) (heq : b.offset i = b.usedSize)
    (hle : b.offset i + n ≤ b.heapCapacity) : ∃ f', Taken b (b.takeSpan i n true) l f' i n := by
  have hr := hb.thins_remove i
  obtain ⟨f', ht, he⟩ := (hr.placed hb.toPlaced).discardFrom (b.offset i)
  rw [takeSpan, if_pos rfl]
  generalize (b.removeFreeBlock i).discardFreeSpansFrom (b.offset i) = d at ht ⊢
  have ha := hr.trans ht
  have hs := ha.sound hb
  have hi' : i ∉ f' := fun hm => hb.free.2.not_mem_erase (ht.sub hm)
  have hh : i ∉ l ++ f' := fun hm => (mem_append.mp hm).elim (hb.not_mem_live hi) hi'
  refine ⟨f', hs.setSize hh n, ?_, (hb.idle i hi).1, hi', ?_, update_self .., ?_⟩
  · refine ha.same.trans ⟨le_rfl, rfl, fun _ => Iff.rfl, fun _ _ => rfl, fun j hj => ⟨rfl, update_of_ne ?_ ..⟩⟩
    rintro rfl
    exact hh (mem_append_left f' (hs.mem hj))
  · obtain ⟨_, _, rfl, _⟩ := ha
    exact (hb.idle i hi).2
  · have ho := ha.offset_eq
    have hc := ha.same.capacity
    have hw := hs.spread.replace (i := i) (o := b.offset i) hn (by rw [hc]; exact hle) fun j hj _ => by
      right
      rcases mem_append.mp hj with hj | hj
      · rw [heq, ← ha.used_eq]
        exact hs.used_le j hj
      · exact (ht.end_eq (inr hj)).le.trans (he j hj)
    rw [← ho, update_eq_self] at hw
    exact hw

/-- The second part of a span stays free, with a record of its own. -/
theorem Sound.take_split (hb : b.Sound l f) (hi : i ∈ f) (hn : 0 < n) (hlt : n < b.size i)
    (ht : b.blockCount + 1 ≤ b.blockCapacity) : Taken b (b.takeSpan i n false) l (b.blockCount :: f.erase i) i n := by
  have hl : ∀ j ∈ l, j < b.blockCount := fun j hj => (hb.live hj).1
  have hil := (hb.idle i hi).1
  have hw : b.blockCount ∉ l ++ f := fun hm => (mem_append.mp hm).elim (fun hj => (hl _ hj).false)
    fun hj => (hb.idle _ hj).1.false
  have he : b.blockCount ∉ f.erase i := fun hm => hw (mem_append_right l (erase_subset hm))
  have hs := hb.spread.split (mem_append_right l hi) hw hn hlt
  have heq : b.takeSpan i n false = { b with
      blockCount := b.blockCount + 1
      offset := update b.offset b.blockCount (b.offset i + n)
      size := update (update b.size b.blockCount (b.size i - n)) i n
      inUse := update b.inUse b.blockCount false
      generation := update b.generation b.blockCount 1
      liveList := { b.liveList with
        prev := update b.liveList.prev b.blockCount none
        next := update b.liveList.next b.blockCount none }
      freeList := Chain.push { (b.removeFreeBlock i).freeList with
        next := update (b.removeFreeBlock i).freeList.next b.blockCount none } b.blockCount } := by
    simp only [takeSpan, Bool.false_eq_true, if_false, if_pos hlt, addRemainder, pushFreeBlock]
    rw [if_neg (by simp [removeFreeBlock])]
    rfl
  have ho : ∀ j, j < b.blockCount → j ≠ b.blockCount := fun j hj => hj.ne
  have hp : ∀ j ∈ l, update b.offset b.blockCount (b.offset i + n) j = b.offset j ∧
      update (update b.size b.blockCount (b.size i - n)) i n j = b.size j := fun j hj => by
    have hji : j ≠ i := fun heq => hb.not_mem_live hi (heq ▸ hj)
    rw [update_of_ne (ho j (hl j hj)), update_of_ne hji, update_of_ne (ho j (hl j hj))]
    exact ⟨rfl, rfl⟩
  have hin : ∀ j, update b.inUse b.blockCount false j = true ↔ j ≠ b.blockCount ∧ b.inUse j = true := fun j => by
    by_cases hj : j = b.blockCount <;> simp [hj]
  have hl' : ∀ j, (j < b.blockCount + 1 ∧ update b.inUse b.blockCount false j = true) ↔ b.Live j := fun j => by
    rw [hin, Live]
    exact ⟨fun h => ⟨by omega, h.2.2⟩, fun h => ⟨by omega, ho j h.1, h.2⟩⟩
  have hid : ∀ j < b.blockCount, b.inUse j = false → update b.inUse b.blockCount false j = false := fun j hj hid => by
    rw [update_of_ne (ho j hj), hid]
  have hg : ∀ j < b.blockCount + 1, 0 < update b.generation b.blockCount 1 j ∧
      update b.generation b.blockCount 1 j < sizeMax := fun j hj => by
    by_cases hjc : j = b.blockCount
    · simp [hjc, sizeMax]
    · rw [update_of_ne hjc]
      exact hb.generation j (by omega)
  rw [heq]
  refine ⟨hb.of_place ⟨hb.list.update (fun hm => hw (mem_append_left f hm)) none none, ?_, ?_, ?_, ?_, hb.capacity,
    ⟨ht, hb.table.2⟩, hg, hb.cursor⟩ hp rfl rfl, ?_, hil, ?_, hid i hil (hb.idle i hi).2, update_self .., ?_⟩
  · exact ((hb.removeFree_is i).update he none).push he
  · exact fun j => (hb.mem_list j).trans (hl' j).symm
  · intro j hj
    rcases mem_cons.mp hj with rfl | hj
    · exact ⟨lt_succ_self _, update_self ..⟩
    · have hjf := hb.idle j (erase_subset hj)
      exact ⟨lt_succ_of_lt hjf.1, hid j hjf.1 hjf.2⟩
  · refine hs.subset fun j hj => ?_
    simp only [mem_append, mem_cons] at hj ⊢
    exact hj.elim (fun hj => inr (inl hj)) (imp_right fun hj => inr (erase_subset hj))
  · exact ⟨le_succ _, rfl, hl', fun j hj => update_of_ne (ho j hj) .., fun j hj => hp j (hb.mem hj)⟩
  · rw [mem_cons, not_or]
    exact ⟨ho i hil, hb.free.2.not_mem_erase⟩
  · refine hs.subset fun j hj => ?_
    simp only [mem_append, mem_cons] at hj ⊢
    rcases hj with rfl | hj | hj | hj
    · exact inr (inr hi)
    · exact inr (inl hj)
    · exact inl hj
    · exact inr (inr (erase_subset hj))

/-! The search for a span. -/

/-- The search finds nothing, a span that is large enough, or the span at the end of the used part that can grow. -/
theorem Sound.find (hb : b.Sound l f) (hs : tl ⊆ f) :
    b.findFreeSpan n tl = .ok none ∨ (∃ i ∈ f, b.findFreeSpan n tl = .ok (some (i, false)) ∧ n ≤ b.size i) ∨
      ∃ i ∈ f, b.findFreeSpan n tl = .ok (some (i, true)) ∧ b.offset i = b.usedSize ∧ b.offset i + n ≤ b.heapCapacity := by
  induction tl with
  | nil => exact inl rfl
  | cons i tl ih =>
    have hi : i ∈ f := hs mem_cons_self
    rw [findFreeSpan, if_neg (hb.not_live_of_free hi)]
    split
    · rename_i hle
      exact inr (inl ⟨i, hi, rfl, hle⟩)
    · split
      · rename_i ht
        exact inr (inr ⟨i, hi, rfl, ht.1, by omega⟩)
      · exact ih fun j hj => hs (mem_cons_of_mem i hj)

/-- Either no span is taken and the book is as it was, or one is. -/
theorem Sound.takeFree (hb : b.Sound l f) (hn : 0 < n) (grows : Bool) :
    (∃ e, b.takeFreeSpan n grows = (b, e, none)) ∨
      ∃ b' i f', b.takeFreeSpan n grows = (b', .success, some i) ∧ Taken b b' l f' i n := by
  unfold takeFreeSpan
  rw [if_neg hn.ne']
  simp only [hb.reconcile_eq, hb.walk_free]
  rcases hb.find (n := n) (fun i hi => hi) with hno | ⟨i, hi, hs, hle⟩ | ⟨i, hi, hs, heq, hle⟩
  · rw [hno]
    exact inl ⟨_, rfl⟩
  · simp only [hs, true_and]
    split
    · exact inl ⟨_, rfl⟩
    · split
      · rename_i hlt
        cases hg : b.ensureBlockCapacity (b.blockCount + 1) grows with
        | none => exact inl ⟨_, rfl⟩
        | some b1 =>
          obtain ⟨c, rfl, hcnt, hc⟩ := ensureBlockCapacity_spec hg
          have hb1 : Sound { b with blockCapacity := c } l f :=
            { hb with table := ⟨le_of_succ_le hcnt, hc.elim (fun h => h ▸ hb.table.2) id⟩ }
          have ht := hb1.take_split hi hn hlt hcnt
          exact inr ⟨_, i, _, rfl, { ht with same := (Same.mk le_rfl rfl (fun _ => Iff.rfl) (fun _ _ => rfl)
            fun _ _ => ⟨rfl, rfl⟩ : Same b { b with blockCapacity := c }).trans ht.same }⟩
      · rename_i hlt
        have hsz : b.size i = n := le_antisymm (not_lt.mp hlt) hle
        refine inr ⟨_, i, f.erase i, rfl, ?_⟩
        rw [takeSpan, if_neg Bool.false_ne_true, if_neg hlt, ← hsz]
        exact hb.take_exact hi
  · simp only [hs, Bool.true_eq_false, false_and, if_false]
    obtain ⟨f', ht⟩ := hb.take_expanded hi hn heq hle
    exact inr ⟨_, i, f', rfl, ht⟩

/-! ## Joining spans -/

/-- A free span has taken in others of the free list. -/
def Joined (b b' : Book) (l f f' : List ℕ) (i : ℕ) : Prop :=
  ∃ offset size freeList, b' = { b with offset := offset, size := size, freeList := freeList } ∧ freeList.Is f' ∧ f' ⊆ f ∧ i ∈ f' ∧
    Spread offset size b.heapCapacity (l ++ f') ∧ (∀ j, j ≠ i → offset j = b.offset j) ∧ ∀ j ∈ l, size j = b.size j

/-- Joining spans keeps the placement. -/
theorem Joined.placed (h : Joined b b' l f f' i) (hb : b.Placed l f) : b'.Placed l f' := by
  obtain ⟨off, size, fl, rfl, hf, hsub, _, hs, _⟩ := h
  exact { hb with free := hf, idle := fun j hj => hb.idle j (hsub hj), spread := hs }

/-- A span takes in another one, before it or after it. -/
theorem Joined.absorb {c o : ℕ} (h : Joined b b' l f f' i) (hb : b.Placed l f) (hc : c ∈ f') (hci : c ≠ i)
    (hnx : b'.blockEnd c = b'.offset i ∧ o = b'.offset c ∨ b'.blockEnd i = b'.offset c ∧ o = b'.offset i) :
    Joined b (b'.absorb i c o) l f (f'.erase c) i := by
  have hp := h.placed hb
  have hr := hp.removeFree_is c
  obtain ⟨off, size, fl, rfl, hf, hsub, hi, hs, ho, hsz⟩ := h
  have hc' : c ∉ l ++ f'.erase c := fun hm => (mem_append.mp hm).elim (fun hl => hp.not_mem_free hl hc) hf.2.not_mem_erase
  have hjn := hs.join (mem_append_right l hi) (mem_append_right l hc) hnx
    (fun j hj => mem_append.mpr ((mem_append.mp hj).imp_right fun hj => erase_subset hj)) hc'
  refine ⟨_, _, _, rfl, hr, fun j hj => hsub (erase_subset hj), hf.2.mem_erase_iff.mpr ⟨hci.symm, hi⟩, hjn,
    fun j hj => (update_of_ne hj ..).trans (ho j hj), fun j hj => ?_⟩
  have hji : j ≠ i := fun heq => hp.not_mem_free hj (heq ▸ hi)
  have hjc : j ≠ c := fun heq => hp.not_mem_free hj (heq ▸ hc)
  rw [update_of_ne hjc, update_of_ne hji]
  exact hsz j hj

/-- A step of the coalescing joins one neighbour, or none. -/
theorem Joined.step {c : ℕ} (h : Joined b b' l f f' i) (hb : b.Placed l f) (hc : c ∈ f') :
    ∃ f'', Joined b (coalesceStep i b' c) l f f'' i ∧ ∀ j ∈ f', j ≠ c → j ∈ f'' := by
  have hs : ∃ f'', Joined b b' l f f'' i ∧ ∀ j ∈ f', j ≠ c → j ∈ f'' := ⟨f', h, fun _ hj _ => hj⟩
  have ha : ∀ {o}, c ≠ i → (b'.blockEnd c = b'.offset i ∧ o = b'.offset c ∨ b'.blockEnd i = b'.offset c ∧ o = b'.offset i) →
      ∃ f'', Joined b (b'.absorb i c o) l f f'' i ∧ ∀ j ∈ f', j ≠ c → j ∈ f'' := fun hci hnx =>
    ⟨f'.erase c, h.absorb hb hc hci hnx, fun j hj hjc => (h.placed hb).free.2.mem_erase_iff.mpr ⟨hjc, hj⟩⟩
  unfold coalesceStep
  split
  · rename_i hcn
    split
    · exact hs
    · split
      · rename_i hbf
        split
        · exact hs
        · exact ha hcn.1 (inl ⟨hbf, rfl⟩)
      · split
        · rename_i haf
          split
          · exact hs
          · exact ha hcn.1 (inr ⟨haf, rfl⟩)
        · exact hs
  · exact hs

/-- The loop of the coalescing joins neighbours only. -/
theorem Placed.joined_foldl (hb : b.Placed l f) (hnd : tl.Nodup) (h : Joined b b' l f f' i)
    (hsub : tl ⊆ f') : ∃ f'', Joined b (tl.foldl (coalesceStep i) b') l f f'' i := by
  induction tl generalizing b' f' with
  | nil => exact ⟨f', h⟩
  | cons c tl ih =>
    rw [nodup_cons] at hnd
    obtain ⟨f1, hs, hk⟩ := h.step hb (hsub mem_cons_self)
    exact ih hnd.2 hs fun j hj => hk j (hsub (mem_cons_of_mem c hj)) fun heq => hnd.1 (heq ▸ hj)

/-- Coalescing gives one span that covers what was joined. -/
theorem Placed.coalesce (hb : b.Placed l f) (hi : i ∈ f) : ∃ f', Joined b (b.coalesceFreeBlock i) l f f' i := by
  rw [coalesceFreeBlock, if_neg (hb.not_live_of_free hi), hb.walk_free]
  exact hb.joined_foldl hb.free.2 ⟨b.offset, b.size, b.freeList, rfl, hb.free, fun _ hj => hj, hi, hb.spread, fun _ _ => rfl,
    fun _ _ => rfl⟩ fun _ hj => hj

/-! ## The live list -/

/-- On sound lists the guarded link is an append. -/
theorem linkBlockAtTail_eq (hl : b.liveList.Is l) (hlv : ∀ j ∈ l, b.Live j) (hi : b.Live i) :
    b.linkBlockAtTail i = { b with liveList := b.liveList.append i } := by
  rw [linkBlockAtTail, if_neg (by rw [hi.2]; simpa using hi.1)]
  cases hls : b.liveList.last with
  | none => rfl
  | some tail =>
    have hm := mem_of_getLast? (hl.last.symm.trans hls)
    obtain ⟨l₁, rfl⟩ : ∃ l₁, l = l₁ ++ [tail] := getLast?_eq_some_iff.mp (hl.last.symm.trans hls)
    have hnx : b.liveList.next tail = none := hl.next_eq
    have ht := hlv tail hm
    simp [ht.1, ht.2, hnx]

/-- The guard of the previous link holds on a sound list. -/
theorem linkedBack_prev (hl : b.liveList.Is (l₁ ++ i :: l₂)) (hlv : ∀ j ∈ l₁ ++ i :: l₂, b.Live j) :
    b.linkedBack i b.liveList.next (b.liveList.prev i) = true := by
  rw [hl.prev_eq]
  cases hls : l₁.getLast? with
  | none => rfl
  | some p =>
    obtain ⟨l₁', rfl⟩ := getLast?_eq_some_iff.mp hls
    rw [append_assoc, singleton_append] at hl hlv
    have hp := hlv p (by simp)
    simp [linkedBack, hp.1, hl.next_eq]

/-- The guard of the next link holds on a sound list. -/
theorem linkedBack_next (hl : b.liveList.Is (l₁ ++ i :: l₂)) (hlv : ∀ j ∈ l₁ ++ i :: l₂, b.Live j) :
    b.linkedBack i b.liveList.prev (b.liveList.next i) = true := by
  rw [hl.next_eq]
  cases l₂ with
  | nil => rfl
  | cons q l₂ =>
    have hq := hlv q (by simp)
    rw [append_cons] at hl
    simp [linkedBack, hq.1, hl.prev_eq]

/-- On sound lists the guarded unlink is an unlink. -/
theorem unlinkBlock_eq (hls : b.liveList.Is l) (hl : ∀ j ∈ l, b.Live j) (hi : i ∈ l) :
    b.unlinkBlock i = { b with liveList := b.liveList.unlink i } := by
  obtain ⟨l₁, l₂, rfl⟩ := append_of_mem hi
  have hii := hl i hi
  rw [unlinkBlock, if_neg (by rw [hii.2]; simpa using hii.1), linkedBack_prev hls hl, linkedBack_next hls hl]
  rfl

/-- Unlinking erases the block from the list. -/
theorem unlink_is (hl : b.liveList.Is l) (hi : i ∈ l) : (b.liveList.unlink i).Is (l.erase i) := by
  obtain ⟨l₁, l₂, rfl, hl1⟩ := eq_append_cons_of_mem hi
  rw [erase_append_right _ hl1, erase_cons_head]
  exact hl.unlink

end Book

end Libft.SCMA
