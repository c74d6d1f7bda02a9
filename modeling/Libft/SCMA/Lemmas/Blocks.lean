import Libft.SCMA.Lemmas.Compaction

/-!
# What the calls do to the blocks

Every call leaves the allocator in order (`Good`), and leaves all records as they were (`Keeps`) but for the one that it is about. A call
that fails leaves all of them as they were.
-/

namespace Libft.SCMA

open Book Function List Or Nat Prod

/-- The next generation is again one that a block can have. -/
theorem nextGeneration_pos {g : ℕ} (hg : g < sizeMax) : 0 < nextGeneration g ∧ nextGeneration g < sizeMax := by
  unfold nextGeneration sizeMax at *
  split
  · omega
  · split <;> omega

/-- A record gets the next generation, and all generations are still those of handles. -/
theorem Book.Placed.generation_next {b : Book} {l f : List ℕ} {i : ℕ} (hb : b.Placed l f) (hi : i < b.blockCount) :
    ∀ j < b.blockCount, 0 < update b.generation i (nextGeneration (b.generation i)) j ∧
      update b.generation i (nextGeneration (b.generation i)) j < sizeMax := by
  intro j hj
  by_cases hji : j = i
  · rw [hji, update_self]
    exact nextGeneration_pos (hb.generation i hi).2
  · rw [update_of_ne hji]
    exact hb.generation j hj

namespace Scma

variable {p : ℕ → Prop} {s s' : Scma} {l f l' f' : List ℕ} {i n : ℕ} {m : Memory}

/-- The blocks of a new book take up at least as much room as before. -/
theorem Clean.cover {b : Book} (h : s.Clean l) (hy : s.book.heapCapacity ≤ b.heapCapacity)
    (hc : ∀ i ∈ l, ∀ x, s.book.Inside i x → ∃ j ∈ l', b.Inside j x) : Clean { s with book := b } l' where
  outside x hx := h.outside x fun i hi hin =>
    have ⟨j, hj, hjn⟩ := hc i hi x hin
    hx j hj hjn
  touched x hx := (h.touched x hx).trans_le hy

/-! ## Room in the heap -/

/-- What growing the heap changes: the capacity, and the cells behind the old one. -/
theorem ensureCapacity_eq (hy : s.book.heapCapacity ≤ sizeMax) (h : s.ensureCapacity n m = some s') : ∃ c heap,
    s' = { s with book := { s.book with heapCapacity := c }, heap := heap } ∧ s.book.heapCapacity ≤ c ∧ n ≤ c ∧ c ≤ sizeMax ∧
      (∀ x < s.book.heapCapacity, heap x = s.heap x) ∧ ∀ x, s.book.heapCapacity ≤ x → heap x = s.heap x ∨ (heap x).data = false := by
  unfold ensureCapacity at h
  split at h
  · cases h
  rename_i hm
  split at h
  · rename_i hle
    cases h
    exact ⟨_, _, rfl, le_rfl, hle, hy, fun _ _ => rfl, fun _ _ => inl rfl⟩
  · rename_i hlt
    have hg : grownCapacity n n (if s.book.heapCapacity = 0 then n else s.book.heapCapacity) = n := by
      apply grownCapacity_eq <;> split <;> omega
    simp only [hg] at h
    rw [if_neg (by omega)] at h
    cases hheap : m.heap with
    | none =>
      rw [hheap] at h
      cases h
    | some garbage =>
      rw [hheap] at h
      cases h
      exact ⟨n, _, rfl, by omega, le_rfl, by omega, fun x hx => if_pos hx, fun x hx => inr (by simp [not_lt.mpr hx])⟩

/-- Growing the heap keeps it good and every block where it is. -/
theorem Good.ensureCapacity (h : s.Good l f) (he : s.ensureCapacity n m = some s') : s'.Good l f ∧ Keeps p s s' ∧
    n ≤ s'.book.heapCapacity ∧ s'.book.offset = s.book.offset ∧ s'.book.size = s.book.size ∧ s'.book.usedSize = s.book.usedSize ∧
      s'.book.blockCount = s.book.blockCount := by
  have hsn := h.sound
  obtain ⟨c, hp, rfl, hle, hn, hm, hsm, hw⟩ := ensureCapacity_eq hsn.capacity he
  refine ⟨⟨{ hsn with spread := hsn.spread.mono hle, capacity := hm },
      ⟨fun x hx => ?_, fun x hx => (h.clean.touched x hx).trans_le hle⟩⟩,
    ⟨le_rfl, fun _ _ => Iff.rfl, fun _ _ _ => rfl, fun _ _ _ => rfl, fun i _ hi k hk => hsm _ ?_⟩, hn, rfl, rfl, rfl, rfl⟩
  · have hc := h.clean.outside x hx
    by_cases hlt : x < s.book.heapCapacity
    · simp only [hsm x hlt]
      exact hc
    · rcases hw x (not_lt.mp hlt) with heq | hd
      · simp only [heq]
        exact hc
      · exact ⟨hd, fun ht => absurd (h.clean.touched x ht) hlt⟩
  · have hend := hsn.end_le (hsn.mem hi)
    rw [blockEnd] at hend
    exact (Nat.add_lt_add_left hk _).trans_le hend

/-- Room has been made: the heap is large enough, and there is no free span behind the used part. -/
structure Roomy (s s' : Scma) (l f : List ℕ) (n : ℕ) : Prop where
  good : s'.Good l f
  keeps : Keeps (fun _ => True) s s'
  capacity : n ≤ s'.book.heapCapacity
  used : s'.book.usedSize = s.book.usedSize
  count : s'.book.blockCount = s.book.blockCount
  place : ∀ i ∈ l, s'.book.offset i = s.book.offset i ∧ s'.book.size i = s.book.size i
  ends : ∀ j ∈ f, s'.book.blockEnd j ≤ s'.book.usedSize

/-- Growing the heap makes room behind the used part. -/
theorem Good.roomy {b : Book} (h : s.Good l f) (he : s.ensureCapacity n m = some s') (ht : Thins s'.book b f f')
    (hen : ∀ j ∈ f', s'.book.blockEnd j ≤ s'.book.usedSize) : Roomy s { s' with book := b } l f' n := by
  obtain ⟨hg, hk, hle, ho, hsz, hu, hcount⟩ := h.ensureCapacity (p := fun _ => True) he
  have hsm := ht.same
  have hlive : ∀ i ∈ l, s'.book.Live i := fun i hi => hg.sound.live hi
  refine ⟨⟨ht.sound hg.sound, hg.clean.of_same hsm hlive⟩, hk.trans (.of_same hsm), hsm.capacity ▸ hle,
    ht.used_eq.trans hu, ?_, fun i hi => ?_, fun j hj => ?_⟩
  · obtain ⟨_, _, rfl, _⟩ := ht
    exact hcount
  · rw [← ho, ← hsz]
    exact hsm.place i (hlive i hi)
  · exact ((ht.end_eq (inr hj)).le.trans (hen j hj)).trans ht.used_eq.ge

/-! ## Allocation -/

/-- A block has been allocated: it is new, and a caller has written nothing in it. -/
structure Allocated (s s' : Scma) (h : Handle) (n : ℕ) : Prop where
  keeps : Keeps (· ≠ h.index) s s'
  fresh : ¬s.book.Live h.index
  live : s'.book.Live h.index
  generation : s'.book.generation h.index = h.generation
  next : h.index < s.book.blockCount → h.generation = nextGeneration (s.book.generation h.index)
  size : s'.book.size h.index = n
  data : ∀ k < n, (s'.heap (s'.book.offset h.index + k)).data = false

/-- A span that has been taken gets a new block. -/
theorem claim_taken {b b' : Book} (ht : Taken b b' l f' i n) :
    (b'.claim i).linkBlockAtTail i = { b'.claim i with liveList := (b'.claim i).liveList.append i } ∧
      Placed { b'.claim i with liveList := (b'.claim i).liveList.append i } (l ++ [i]) f' := by
  have hsn := ht.sound
  have hi : i < b'.blockCount := ht.lt.trans_le ht.same.count
  have hil : i ∉ l := fun hm => Bool.false_ne_true (ht.idle.symm.trans (hsn.live hm).2)
  have hins : ∀ j, update b'.inUse i true j = true ↔ b'.inUse j = true ∨ j = i := fun j => by
    by_cases hj : j = i <;> simp [hj]
  have hm : ∀ j, j ∈ l ++ [i] ↔ (b'.claim i).Live j := fun j => by
    rw [mem_append, mem_singleton, hsn.mem_list]
    exact ⟨fun hj => hj.elim (fun hj => ⟨hj.1, (hins j).mpr (inl hj.2)⟩) fun hj => ⟨hj ▸ hi, (hins j).mpr (inr hj)⟩,
      fun hj => ((hins j).mp hj.2).imp_left fun hu => ⟨hj.1, hu⟩⟩
  have hl : (b'.claim i).liveList.Is l := hsn.list.update hil none none
  have hid : ∀ j ∈ f', j < b'.blockCount ∧ update b'.inUse i true j = false := fun j hj => by
    rw [update_of_ne fun heq : j = i => ht.not_mem (heq ▸ hj)]
    exact hsn.idle j hj
  refine ⟨linkBlockAtTail_eq hl (fun j hj => (hm j).mp (mem_append_left [i] hj))
    ((hm i).mp mem_concat_self), hl.append hil, hsn.free, hm, hid,
    ht.spread.subset fun j hj => ?_, hsn.capacity, hsn.table, hsn.generation_next hi, hsn.cursor⟩
  simp only [mem_append, mem_cons, not_mem_nil, or_false] at hj ⊢
  tauto

/-- Taking a span makes it the last live block. -/
theorem Good.allocateSpan {b : Book} (h : s.Good l f) (ht : Taken s.book b l f' i n) :
    (allocateSpan { s with book := b } i n).1.Good (l ++ [i]) f' ∧
      Allocated s (allocateSpan { s with book := b } i n).1 (allocateSpan { s with book := b } i n).2 n := by
  obtain ⟨hl, hp⟩ := claim_taken ht
  have hsn := ht.sound
  have hm := h.sound.mem_list
  unfold Scma.allocateSpan
  simp only [hl]
  have hil : ¬s.book.Live i := fun hlive => by
    have := ((ht.same.live i).mpr hlive).2
    rw [ht.idle] at this
    cases this
  have hsum : b.liveSize + n = ((l ++ [i]).map b.size).sum := by
    rw [map_append, sum_append_nat, hsn.liveSize, map_singleton, sum_singleton, ht.size_eq]
  have hlive : ∀ j, j ≠ i → ((b.claim i).Live j ↔ s.book.Live j) := fun j hj => by
    rw [← ht.same.live]
    unfold Live claim
    simp only [update_of_ne hj]
  refine ⟨⟨hp.recompute hsum, ?_⟩, ⟨?_, hlive, fun j hj hlt => ?_, fun j _ hj => (ht.same.place j hj).2, fun j _ hj k _ => ?_⟩, hil,
    ?_, update_self .., fun hlt => ?_, ht.size_eq, fun k hk => ?_⟩
  · exact h.clean.cover ht.same.capacity.ge fun j hj x hin =>
      ⟨j, mem_append_left [i] hj, (ht.same.inside ((hm j).mp hj)).mpr hin⟩
  · exact ht.same.count
  · exact (update_of_ne hj ..).trans (ht.same.generation j hlt)
  · exact congrArg (fun o => s.heap (o + k)) (ht.same.place j hj).1
  · exact hp.live mem_concat_self
  · exact congrArg nextGeneration (ht.same.generation i hlt)
  · refine (h.clean.outside _ fun j hj hin => ?_).1
    have hi' := (ht.same.inside ((hm j).mp hj)).mpr hin
    have hji : i = j := ht.spread.unique mem_cons_self (mem_cons_of_mem i (mem_append_left f' hj))
      ⟨Nat.le_add_right _ _, by rw [ht.size_eq]; exact Nat.add_lt_add_left hk _⟩ hi'
    exact hil (hji ▸ (hm j).mp hj)

/-- A new block behind all others. -/
theorem addBlock_sound {b : Book} (hb : b.Sound l f) (hn : 0 < n) (hle : b.usedSize + n ≤ b.heapCapacity)
    (he : ∀ j ∈ f, b.blockEnd j ≤ b.usedSize) (ht : b.blockCount + 1 ≤ b.blockCapacity) :
    (b.addBlock n).linkBlockAtTail b.blockCount = { b.addBlock n with liveList := (b.addBlock n).liveList.append b.blockCount } ∧
      Sound { b.addBlock n with
        liveList := (b.addBlock n).liveList.append b.blockCount
        usedSize := b.usedSize + n
        liveSize := b.liveSize + n } (l ++ [b.blockCount]) f := by
  have hlt : ∀ j ∈ l, j < b.blockCount := fun j hj => (hb.live hj).1
  have hil : b.blockCount ∉ l := fun hm => (hlt _ hm).false
  have hif : b.blockCount ∉ f := fun hm => (hb.idle _ hm).1.false
  have ho : ∀ {α : Type} (g : ℕ → α) v, ∀ j < b.blockCount, update g b.blockCount v j = g j := fun g v j hj =>
    update_of_ne hj.ne ..
  have hm : ∀ j, j ∈ l ++ [b.blockCount] ↔ (b.addBlock n).Live j := fun j => by
    rw [mem_append, mem_singleton, hb.mem_list]
    refine ⟨fun hj => hj.elim (fun hj => ⟨lt_succ_of_lt hj.1, (ho b.inUse true j hj.1).trans hj.2⟩) ?_, fun hj => ?_⟩
    · rintro rfl
      exact ⟨lt_succ_self _, update_self ..⟩
    · rcases Nat.lt_succ_iff_lt_or_eq.mp hj.1 with hlt | heq
      · exact inl ⟨hlt, (ho b.inUse true j hlt).symm.trans hj.2⟩
      · exact inr heq
  have hl : (b.addBlock n).liveList.Is l := hb.list.update hil none none
  have hid : ∀ j ∈ f, j < b.blockCount + 1 ∧ update b.inUse b.blockCount true j = false := fun j hj =>
    ⟨lt_succ_of_lt (hb.idle j hj).1, (ho b.inUse true j (hb.idle j hj).1).trans (hb.idle j hj).2⟩
  have hgen : ∀ j < b.blockCount + 1, 0 < update b.generation b.blockCount 1 j ∧
      update b.generation b.blockCount 1 j < sizeMax := fun j hj => by
    rcases Nat.lt_succ_iff_lt_or_eq.mp hj with hlt | rfl
    · rw [ho b.generation 1 j hlt]
      exact hb.generation j hlt
    · rw [update_self]
      exact ⟨one_pos, by decide⟩
  have hsp := hb.spread.insert (i := b.blockCount) (o := b.usedSize) (n := n)
    (fun hm => (mem_append.mp hm).elim hil hif) hn hle fun j hj =>
      inr ((mem_append.mp hj).elim (fun hj => hb.used_le j hj) fun hj => he j hj)
  have hd : ∀ j ∈ l, update b.offset b.blockCount b.usedSize j + update b.size b.blockCount n j = b.blockEnd j :=
    fun j hj => by rw [ho b.offset _ j (hlt j hj), ho b.size _ j (hlt j hj), blockEnd]
  refine ⟨linkBlockAtTail_eq hl (fun j hj => (hm j).mp (mem_append_left _ hj))
    ((hm _).mp mem_concat_self), ⟨hl.append hil, hb.free.update hif none, hm, hid,
    hsp.subset fun j hj => ?_, hb.capacity, ⟨ht, hb.table.2⟩, hgen, hb.cursor⟩, fun j hj => ?_, inr ⟨b.blockCount, ?_, ?_⟩, ?_⟩
  · simp only [mem_append, mem_cons, not_mem_nil, or_false] at hj ⊢
    tauto
  · rcases mem_append.mp hj with hj | hj
    · exact (hd j hj).le.trans ((hb.used_le j hj).trans (Nat.le_add_right _ _))
    · rw [mem_singleton.mp hj]
      exact (congrArg₂ (· + ·) (update_self ..) (update_self ..)).le
  · exact mem_concat_self
  · exact congrArg₂ (· + ·) (update_self ..) (update_self ..)
  · have hsum : b.liveSize + n = ((l ++ [b.blockCount]).map (update b.size b.blockCount n)).sum := by
      rw [map_append, sum_append_nat, map_congr_left fun j hj => ho b.size n j (hlt j hj), ← hb.liveSize,
        map_singleton, sum_singleton, update_self]
    exact hsum

/-- What comes of an allocation. -/
def Allocates (s : Scma) (n : ℕ) (out : Scma × Handle) : Prop :=
  (∃ l f, out.1.Good l f) ∧ (out.2 = invalidHandle ∧ Keeps (fun _ => True) s out.1 ∨ Allocated s out.1 out.2 n)

variable {h : Handle} {s₁ : Scma}

/-- An allocation after a change that keeps the blocks is one from the start. -/
theorem Allocated.of_keeps (hk : Keeps (fun _ => True) s s₁) (ha : Allocated s₁ s' h n)
    (hcount : s₁.book.blockCount = s.book.blockCount) : Allocated s s' h n where
  keeps := (hk.mono fun _ _ => trivial).trans ha.keeps
  fresh hlive := ha.fresh ((hk.live _ trivial).mpr hlive)
  live := ha.live
  generation := ha.generation
  next hlt := (ha.next (hcount ▸ hlt)).trans (congrArg nextGeneration (hk.generation _ trivial hlt))
  size := ha.size
  data := ha.data

/-- An allocation behind the used part succeeds or leaves the blocks alone. -/
theorem Good.allocateAtEnd (h : s.Good l f) (hn : 0 < n) (m : Memory) : Allocates s n (s.allocateAtEnd n (s.book.usedSize + n) m) := by
  unfold Scma.allocateAtEnd
  cases hrm : s.ensureCapacity (s.book.usedSize + n) m with
  | none => exact ⟨⟨l, f, h⟩, inl ⟨rfl, .refl _ s⟩⟩
  | some s₁ =>
    obtain ⟨hg, -, -, -, -, -, hcount⟩ := h.ensureCapacity (p := fun _ => True) hrm
    obtain ⟨f', ht, he⟩ := hg.sound.discardFrom s₁.book.usedSize
    have hr := h.roomy hrm ht he
    simp only
    generalize s₁.book.discardFreeSpansFrom s₁.book.usedSize = d at hr ⊢
    have hsn := hr.good.sound
    cases htbl : d.ensureBlockCapacity (s₁.book.blockCount + 1) m.table with
    | none => exact ⟨⟨l, f', hr.good⟩, inl ⟨rfl, hr.keeps⟩⟩
    | some b =>
      obtain ⟨c, rfl, hc, hm⟩ := ensureBlockCapacity_spec htbl
      rw [hcount.trans hr.count.symm] at hc
      have hd : Sound { d with blockCapacity := c } l f' :=
        { hsn with table := ⟨(le_succ _).trans hc, hm.elim (fun heq => heq ▸ hsn.table.2) id⟩ }
      obtain ⟨hl, ha⟩ := addBlock_sound hd hn (hr.used ▸ hr.capacity) hr.ends hc
      simp only [hl]
      have hlt : ∀ j, d.Live j → j ≠ d.blockCount := fun j hj => hj.1.ne
      have hins : ∀ j ∈ l, ∀ x, d.Inside j x → (addBlock { d with blockCapacity := c } n).Inside j x := fun j hj x hin => by
        unfold Inside blockEnd addBlock
        simp only [update_of_ne (hlt j (hsn.live hj))]
        exact hin
      have hlive : ∀ j, j ≠ d.blockCount → ((addBlock { d with blockCapacity := c } n).Live j ↔ d.Live j) := fun j hj => by
        unfold Live addBlock
        simp only [update_of_ne hj]
        exact and_congr_left' (by omega)
      refine ⟨⟨_, _, ha, hr.good.clean.cover le_rfl fun j hj x hin => ⟨j, mem_append_left _ hj, hins j hj x hin⟩⟩,
        inr (Allocated.of_keeps hr.keeps ⟨⟨?_, hlive, fun j hj _ => ?_, fun j _ hj => ?_, fun j _ hj k hk => ?_⟩, ?_, ?_, ?_, ?_, ?_, ?_⟩
          hr.count)⟩
      · exact le_succ _
      · exact update_of_ne hj ..
      · exact update_of_ne (hlt j hj) ..
      · exact congrArg (fun o => s₁.heap (o + k)) (update_of_ne (hlt j hj) ..)
      · exact fun hj => hlt _ hj rfl
      · exact ha.live mem_concat_self
      · exact update_self ..
      · exact fun hj => absurd hj (lt_irrefl _)
      · exact update_self ..
      · intro k hk
        have ho : (addBlock { d with blockCapacity := c } n).offset d.blockCount = d.usedSize := update_self ..
        refine (hr.good.clean.outside _ fun j hj hin => ?_).1
        have := hin.2.trans_le (hsn.used_le j hj)
        simp only [ho] at this
        omega

/-- The compaction of an allocation, if there is to be one. Then none is needed any more. -/
theorem Good.allocateCompact (h : s.Good l f) (hm : s.book.usedSize + n < 2 ^ 64) : ∃ s₁,
    s.allocateCompact n (s.book.usedSize + n) = (s₁, some (s₁.book.usedSize + n)) ∧ s₁.book.compactionNeeded = false ∧
      (s.book.compactionNeeded = true ∧ Finished s l s₁ ∨ s₁ = s) := by
  unfold Scma.allocateCompact
  by_cases hnd : s.book.compactionNeeded = true
  · -- what is common to the two ways of a compaction
    have he : ∀ {s'}, Finished s l s' → (if (s'.book.usedSize + n) % 2 ^ 64 < s'.book.usedSize then (s', none)
        else (s', some ((s'.book.usedSize + n) % 2 ^ 64))) = (s', some (s'.book.usedSize + n)) := fun {s'} hf => by
      have hu := hf.used
      rw [mod_eq_of_lt (by omega), if_neg (by omega)]
    rw [if_pos hnd]
    obtain ⟨s₁, hr, hf | hmid⟩ := h.incremental
    · simp only [hr, hf.needed, Bool.true_eq_false, Bool.false_eq_true, if_false]
      exact ⟨s₁, he hf, hf.needed, inl ⟨hnd, hf⟩⟩
    · have hn1 : s₁.book.compactionNeeded = true := by
        obtain ⟨_, _, _, _, _, rfl, _⟩ := hmid
        exact hnd
      obtain ⟨s2, hc, hf⟩ := hmid.compact h hnd
      simp only [hr, hn1, hc, Bool.true_eq_false, if_false, if_true]
      exact ⟨s2, he hf, hf.needed, inl ⟨hnd, hf⟩⟩
  · rw [if_neg hnd]
    exact ⟨s, rfl, Bool.eq_false_iff.mpr hnd, inr rfl⟩

/-- An allocation that finds no span puts the block at the end of the used part, after a compaction if one is needed. -/
theorem Good.allocate_eq (h : s.Good l f) (hn : 0 < n) (hm : s.book.usedSize + n < 2 ^ 64)
    (hno : s.book.takeFreeSpan n m.table = (s.book, .success, none)) : ∃ s₁,
    s.allocate n m = s₁.allocateAtEnd n (s₁.book.usedSize + n) m ∧ s₁.book.compactionNeeded = false ∧
      (s.book.compactionNeeded = true ∧ Finished s l s₁ ∨ s₁ = s) := by
  obtain ⟨s₁, hc, hnd, hs⟩ := h.allocateCompact hm
  have hag : s₁.allocateCompactAgain n (s₁.book.usedSize + n) = (s₁, some (s₁.book.usedSize + n)) := if_neg (by simp [hnd])
  refine ⟨s₁, ?_, hnd, hs⟩
  rw [Scma.allocate, if_neg (by unfold sizeMax; omega), mod_eq_of_lt hm, if_neg (by omega), hno]
  simp only [hc, hag]

/-- An allocation leaves all as it was, takes a span, or finds none. -/
theorem Good.allocate_cases (h : s.Good l f) (n : ℕ) (m : Memory) : s.allocate n m = (s, invalidHandle) ∨
    (∃ b i f', Taken s.book b l f' i n ∧ s.allocate n m = Scma.allocateSpan { s with book := b } i n) ∨
      0 < n ∧ s.book.usedSize + n < 2 ^ 64 ∧ s.book.takeFreeSpan n m.table = (s.book, .success, none) := by
  by_cases hn : n = 0 ∨ sizeMax < n
  · exact inl (if_pos hn)
  by_cases ho : (s.book.usedSize + n) % 2 ^ 64 < s.book.usedSize
  · exact inl ((if_neg hn).trans (if_pos ho))
  have hu := h.sound.used_le_capacity.trans h.sound.capacity
  have hm : 0 < n ∧ s.book.usedSize + n < 2 ^ 64 := by
    unfold sizeMax at hn hu
    omega
  rw [Scma.allocate, if_neg hn, if_neg ho]
  rcases h.sound.takeFree hm.1 m.table with ⟨e, hno⟩ | ⟨b, i, f', hsm, ht⟩
  · rw [hno]
    cases e with
    | success => exact inr (inr ⟨hm.1, hm.2, rfl⟩)
    | _ => exact inl rfl
  · rw [hsm]
    exact inr (inl ⟨b, i, f', ht, rfl⟩)

/-- Every way through an allocation succeeds or leaves the blocks alone. -/
theorem Good.allocate (h : s.Good l f) (n : ℕ) (m : Memory) : Allocates s n (s.allocate n m) := by
  rcases h.allocate_cases n m with heq | ⟨b, i, f', ht, heq⟩ | ⟨hn, hm, hno⟩
  · rw [heq]
    exact ⟨⟨l, f, h⟩, inl ⟨rfl, .refl _ s⟩⟩
  · have hsp := h.allocateSpan ht
    rw [heq]
    exact ⟨⟨_, _, hsp.1⟩, inr hsp.2⟩
  · obtain ⟨s₁, heq, -, ⟨-, hc⟩ | rfl⟩ := h.allocate_eq hn hm hno
    · obtain ⟨hg, ho⟩ := hc.good.allocateAtEnd hn m
      rw [heq]
      exact ⟨hg, ho.imp (fun ho => ⟨ho.1, hc.keeps.trans ho.2⟩) fun ho => ho.of_keeps hc.keeps hc.count⟩
    · rw [heq]
      exact h.allocateAtEnd hn m

/-! ## Freeing -/

/-- A handle is valid while its block lives in its generation. -/
theorem validateHandle_iff {b : Book} (hb : b.Placed l f) (h : Handle) :
    b.validateHandle h = true ↔ b.Live h.index ∧ b.generation h.index = h.generation := by
  simp only [validateHandle, Bool.and_eq_true, decide_eq_true_eq, beq_iff_eq, Live]
  refine ⟨fun hv => ⟨⟨hv.1.1.2, hv.1.2⟩, hv.2⟩, fun hv => ⟨⟨⟨⟨?_, ?_⟩, hv.1.1⟩, hv.1.2⟩, hv.2⟩⟩
  · exact (hv.1.1.trans hb.index_lt).ne
  · exact hv.2 ▸ (hb.generation h.index hv.1.1).2.ne

theorem Good.mem_of_valid (hs : s.Good l f) (hv : s.book.validateHandle h = true) : h.index ∈ l :=
  hs.sound.mem ((validateHandle_iff hs.sound.toPlaced h).mp hv).1

/-- What the flags of the compaction are is of no matter for a book. -/
theorem sound_flags {b : Book} (hb : b.Sound l f) (needed : Bool) (tgt : ℕ) :
    Sound { b with compactionNeeded := needed, compactionCursor := none, compactionTarget := tgt } l f :=
  { hb with cursor := rfl }

/-- A block becomes a free span. -/
theorem release_placed {b : Book} (hb : b.Sound l f) (hi : i ∈ l) :
    ((b.unlinkBlock i).release i).pushFreeBlock i =
        { release { b with liveList := b.liveList.unlink i } i with freeList := b.freeList.push i } ∧
      Placed { release { b with liveList := b.liveList.unlink i } i with freeList := b.freeList.push i } (l.erase i) (i :: f) := by
  have hlive := hb.live hi
  have hm : ∀ j, j ∈ l.erase i ↔ (b.release i).Live j := fun j => by
    rw [hb.list.2.2.mem_erase_iff, hb.mem_list]
    unfold Live release
    by_cases hji : j = i
    · simp [hji]
    · simp [hji]
  have hid : ∀ j ∈ i :: f, j < b.blockCount ∧ update b.inUse i false j = false := fun j hj => by
    rcases mem_cons.mp hj with rfl | hj
    · exact ⟨hlive.1, update_self ..⟩
    · refine ⟨(hb.idle j hj).1, ?_⟩
      rw [update_of_ne fun heq : j = i => hb.not_mem_free hi (heq ▸ hj)]
      exact (hb.idle j hj).2
  refine ⟨?_, unlink_is hb.list hi, hb.free.push (hb.not_mem_free hi), hm, hid, hb.spread.subset fun j hj => ?_, hb.capacity, hb.table,
    hb.generation_next hlive.1, hb.cursor⟩
  · rw [unlinkBlock_eq hb.list (fun j hj => hb.live hj) hi]
    exact if_neg (not_le.mpr hlive.1)
  · simp only [mem_append, mem_cons] at hj ⊢
    rcases hj with hj | rfl | hj
    · exact inl (mem_of_mem_erase hj)
    · exact inl hi
    · exact inr hj

/-- The block is gone, and its record has another generation. -/
structure Freed (s s' : Scma) (i : ℕ) : Prop where
  keeps : Keeps (· ≠ i) s s'
  dead : ¬s'.book.Live i
  generation : s'.book.generation i = nextGeneration (s.book.generation i)

section

variable {b : Book} (hs : s.Good l f) (hi : i ∈ l) (hy : b.heapCapacity = s.book.heapCapacity)
  (hcount : b.blockCount = s.book.blockCount) (hlive : ∀ j, j ≠ i → (b.Live j ↔ s.book.Live j))
  (hgen : ∀ j, j ≠ i → b.generation j = s.book.generation j)
  (hplace : ∀ j ∈ l, j ≠ i → j ∈ l' ∧ b.offset j = s.book.offset j ∧ b.size j = s.book.size j)

include hs hi hy hcount hlive hgen hplace

/-- The bytes of a block change, and the other blocks stay in their places. What is no longer in the block has to be clean. -/
theorem Good.alter {he : ℕ → Cell} {touched : ℕ → Bool}
    (hsm : ∀ x, ¬s.book.Inside i x → he x = s.heap x ∧ touched x = s.touched x)
    (hc : ∀ x, s.book.Inside i x → (∀ j ∈ l', ¬b.Inside j x) → (he x).data = false ∧ (touched x = true → (he x).value = 0)) :
    Clean ⟨b, he, touched⟩ l' ∧ Keeps (· ≠ i) s ⟨b, he, touched⟩ := by
  have hsn := hs.sound
  refine ⟨⟨fun x hx => ?_, fun x hx => ?_⟩, hcount.ge, fun j hj => hlive j hj, fun j hj _ => hgen j hj,
    fun j hj hjl => (hplace j (hsn.mem hjl) hj).2.2, fun j hj hjl k hk => ?_⟩
  · by_cases hin : s.book.Inside i x
    · exact hc x hin hx
    · simp only [(hsm x hin).1, (hsm x hin).2]
      refine hs.clean.outside x fun j hj hjn => ?_
      obtain ⟨hj', ho, hsz⟩ := hplace j hj fun hji => hin (hji ▸ hjn)
      refine hx j hj' ?_
      rwa [Inside, blockEnd, ho, hsz]
  · simp only [hy]
    by_cases hin : s.book.Inside i x
    · exact hin.2.trans_le (hsn.end_le hi)
    · exact hs.clean.touched x ((hsm x hin).2 ▸ hx)
  · have hjl := hsn.mem hjl
    simp only [(hplace j hjl hj).2.1]
    refine (hsm _ fun hin => ?_).1
    unfold Inside blockEnd at hin
    rcases hsn.spread_live.apart j hjl i hi hj with hap | hap <;> omega

/-- A part of a block is wiped, with all that is no longer in the block. -/
theorem Good.wipe {a : ℕ} (ha : s.book.offset i ≤ a) (he : a + n ≤ s.book.blockEnd i)
    (hr : ∀ x, s.book.Inside i x → (∀ j ∈ l', ¬b.Inside j x) → a ≤ x ∧ x < a + n) :
    Clean { s.secureBzero a n with book := b } l' ∧ Keeps (· ≠ i) s { s.secureBzero a n with book := b } := by
  refine hs.alter hi hy hcount hlive hgen hplace (fun x hx => ?_) fun x hin hx => ?_
  · have ho : x < a ∨ a + n ≤ x := by
      unfold Inside at hx
      omega
    simp only [secureBzero, overwrite_of_not_mem ho, and_self]
  · simp only [secureBzero, overwrite_of_mem (hr x hin hx)]
    exact ⟨trivial, fun _ => trivial⟩

end

/-- A block has become a free span, and has been joined with the free spans next to it. -/
structure Reclaimed (b b' : Book) (l f' : List ℕ) (i : ℕ) : Prop where
  placed : b'.Placed (l.erase i) f'
  capacity : b'.heapCapacity = b.heapCapacity
  count : b'.blockCount = b.blockCount
  inUse : b'.inUse = update b.inUse i false
  generation : b'.generation = update b.generation i (nextGeneration (b.generation i))
  liveSize : b'.liveSize = ((l.erase i).map b'.size).sum
  place : ∀ j ∈ l, j ≠ i → b'.offset j = b.offset j ∧ b'.size j = b.size j

/-- A released block becomes a free span and joins its neighbours. -/
theorem reclaim {b : Book} (hb : b.Sound l f) (hi : i ∈ l) :
    ∃ f', Reclaimed b ((((b.unlinkBlock i).release i).pushFreeBlock i).coalesceFreeBlock i) l f' i := by
  obtain ⟨heq, hp⟩ := release_placed hb hi
  obtain ⟨f', hjn⟩ := hp.coalesce mem_cons_self
  have hp' := hjn.placed hp
  rw [heq]
  obtain ⟨off, size, fl, hc, _, _, _, _, ho, hsz⟩ := hjn
  rw [hc] at hp' ⊢
  refine ⟨f', hp', rfl, rfl, rfl, rfl, ?_, fun j hj hji => ⟨ho j hji, hsz j (hb.list.2.2.mem_erase_iff.mpr ⟨hji, hj⟩)⟩⟩
  have hm : b.liveSize - b.size i = ((l.erase i).map b.size).sum := by
    rw [hb.liveSize, ← sum_map_erase b.size hi, Nat.add_sub_cancel_left]
  exact hm.trans (congrArg List.sum (map_congr_left hsz).symm)

/-- What is left is in order, whatever free spans there are now. -/
theorem Good.free_reclaimed {b : Book} (hs : s.Good l f) (hv : s.book.validateHandle h = true)
    (hbk : (((s.book.unlinkBlock h.index).release h.index).pushFreeBlock h.index).coalesceFreeBlock h.index = b)
    (hb : Reclaimed s.book b l f' h.index) :
    (s.free h).1.Good (l.erase h.index) f' ∧ (s.free h).2 = .success ∧ Freed s (s.free h).1 h.index ∧
      (s.free h).1.book.size = b.size := by
  have hi := hs.mem_of_valid hv
  simp only [free, hv, Bool.true_eq_false, if_false, hbk]
  have hr := hb.placed.recompute hb.liveSize
  obtain ⟨hc, hk⟩ := hs.wipe hi hb.capacity hb.count
    (fun j hj => by unfold Live; rw [hb.count, hb.inUse, update_of_ne hj])
    (fun j hj => by rw [hb.generation, update_of_ne hj])
    (fun j hj hji => ⟨hs.sound.list.2.2.mem_erase_iff.mpr ⟨hji, hj⟩, hb.place j hj hji⟩) le_rfl le_rfl fun x hin _ => hin
  have hd : ¬b.Live h.index := fun hlive => by
    have hu := hlive.2
    rw [hb.inUse, update_self] at hu
    exact Bool.false_ne_true hu
  have hgen : b.generation h.index = nextGeneration (s.book.generation h.index) := by rw [hb.generation, update_self]
  split
  · exact ⟨⟨hr, hc.outside, hc.touched⟩, rfl, ⟨{ hk with }, hd, hgen⟩, rfl⟩
  · exact ⟨⟨sound_flags hr true 0, hc.outside, hc.touched⟩, rfl, ⟨{ hk with }, hd, hgen⟩, rfl⟩

/-- A release frees this block and keeps the others. -/
theorem Good.free (hs : s.Good l f) (hv : s.book.validateHandle h = true) :
    (∃ l f, (s.free h).1.Good l f) ∧ (s.free h).2 = .success ∧ Freed s (s.free h).1 h.index := by
  have hi := hs.mem_of_valid hv
  obtain ⟨f', hb⟩ := reclaim hs.sound hi
  obtain ⟨hg, hc, hf, _⟩ := hs.free_reclaimed hv rfl hb
  exact ⟨⟨_, _, hg⟩, hc, hf⟩

/-! ## Another size -/

/-- The block has another size. It has the contents that it had, as far as they go, and no others. -/
structure Resized (s s' : Scma) (i n : ℕ) : Prop where
  keeps : Keeps (· ≠ i) s s'
  live : s'.book.Live i
  generation : s'.book.generation i = s.book.generation i
  size : s'.book.size i = n
  cell : ∀ k < s.book.size i, k < n → s'.heap (s'.book.offset i + k) = s.heap (s.book.offset i + k)
  data : ∀ k, s.book.size i ≤ k → k < n → (s'.heap (s'.book.offset i + k)).data = false

/-- A resize after a change that keeps the blocks is one from the start. -/
theorem Resized.of_keeps (hkp : Keeps (fun _ => True) s s₁) (hi : s.book.Live i) (h : Resized s₁ s' i n) : Resized s s' i n := by
  have hsz := hkp.size i trivial hi
  refine ⟨(hkp.mono fun _ _ => trivial).trans h.keeps, h.live, h.generation.trans (hkp.generation i trivial hi.1), h.size,
    fun k hk hkn => ?_, fun k hk hkn => h.data k (hsz.trans_le hk) hkn⟩
  exact (h.cell k (hsz ▸ hk) hkn).trans (hkp.cell i trivial hi k hk)

/-- What the blocks take up when one of them has another size. -/
theorem sum_place {b : Book} (hb : b.Sound l f) (hi : i ∈ l) (o n : ℕ) :
    b.size i ≤ b.liveSize ∧ (l.map (b.place i o n).size).sum + b.size i = b.liveSize + n := by
  have he : (l.erase i).map (update b.size i n) = (l.erase i).map b.size :=
    map_congr_left fun j hj => update_of_ne (hb.list.2.2.mem_erase_iff.mp hj).1 ..
  rw [hb.liveSize, place, ← sum_map_erase b.size hi, ← sum_map_erase (update b.size i n) hi, he, update_self]
  omega

/-- A block is laid out anew, where no other span is. -/
theorem place_placed {b : Book} {o : ℕ} (hb : b.Placed l f) (hn : 0 < n) (hle : o + n ≤ b.heapCapacity)
    (ha : ∀ j ∈ l ++ f, j ≠ i → o + n ≤ b.offset j ∨ b.blockEnd j ≤ o) : (b.place i o n).Placed l f :=
  { hb with spread := (hb.spread.replace hn hle ha).subset fun _ hj => mem_cons_of_mem i hj }

/-- A block is at another place, and all else about the records is as it was. -/
structure Laid (b b' : Book) (i o n : ℕ) : Prop where
  capacity : b'.heapCapacity = b.heapCapacity
  count : b'.blockCount = b.blockCount
  inUse : b'.inUse = b.inUse
  generation : b'.generation = b.generation
  offset : b'.offset = update b.offset i o
  size : b'.size = update b.size i n

namespace Laid

variable {b b' : Book} {o j : ℕ}

theorem live (h : Laid b b' i o n) : b'.Live j ↔ b.Live j := by
  unfold Live
  rw [h.count, h.inUse]

theorem other (h : Laid b b' i o n) (hj : j ≠ i) : b'.offset j = b.offset j ∧ b'.size j = b.size j := by
  rw [h.offset, h.size]
  exact ⟨update_of_ne hj .., update_of_ne hj ..⟩

theorem self (h : Laid b b' i o n) : b'.offset i = o ∧ b'.size i = n := by
  rw [h.offset, h.size]
  exact ⟨update_self .., update_self ..⟩

/-- Laying a block elsewhere changes what is inside this block only. -/
theorem inside (h : Laid b b' i o n) {x : ℕ} : b'.Inside j x ↔ if j = i then o ≤ x ∧ x < o + n else b.Inside j x := by
  unfold Inside blockEnd
  split
  · rename_i heq
    rw [heq, h.self.1, h.self.2]
  · rename_i hne
    rw [(h.other hne).1, (h.other hne).2]

/-- The others keep their contents if these are left alone. -/
theorem keeps {he : ℕ → Cell} {touched : ℕ → Bool} (h : Laid s.book b' i o n)
    (hc : ∀ j, j ≠ i → s.book.Live j → ∀ k < s.book.size j, he (s.book.offset j + k) = s.heap (s.book.offset j + k)) :
    Keeps (· ≠ i) s ⟨b', he, touched⟩ where
  count := h.count.ge
  live _ _ := h.live
  generation _ _ _ := congrFun h.generation _
  size _ hj _ := (h.other hj).2
  cell j hj hlive k hk := by
    rw [(h.other hj).1]
    exact hc j hj hlive k hk

end Laid

/-- Shrinking keeps the front of the block. -/
theorem Good.shrink (h : s.Good l f) (hi : i ∈ l) (hn : 0 < n) (hlt : n < s.book.size i) :
    (∃ l f, (s.shrink i n).Good l f) ∧ Resized s (s.shrink i n) i n := by
  have hsn := h.sound
  have he := hsn.end_le hi
  rw [blockEnd] at he
  have hp := place_placed (o := s.book.offset i) hsn.toPlaced hn (by omega) fun j hj hji => by
    rcases hsn.spread.apart i (mem_append_left f hi) j hj (Ne.symm hji) with hap | hap
    · exact inl (by omega)
    · exact inr hap
  have hm := sum_place hsn hi (s.book.offset i) n
  have hr := hp.recompute (n := s.book.liveSize - (s.book.size i - n)) (by omega)
  have ho : ∀ b : Book, b.Sound l f → Laid s.book b i (s.book.offset i) n →
      (∃ l f, Good { s.secureBzero (s.book.offset i + n) (s.book.size i - n) with book := b } l f) ∧
        Resized s { s.secureBzero (s.book.offset i + n) (s.book.size i - n) with book := b } i n := by
    intro b hb hl
    obtain ⟨hc, hkp⟩ := h.wipe (a := s.book.offset i + n) (n := s.book.size i - n) hi hl.capacity hl.count
      (fun _ _ => hl.live) (fun _ _ => congrFun hl.generation _) (fun j hj hji => ⟨hj, hl.other hji⟩) (le_add_right _ _)
      (by rw [blockEnd]; omega) fun x hin hx => by
        have ht := hx i hi
        rw [hl.inside, if_pos rfl] at ht
        unfold Inside blockEnd at hin
        omega
    refine ⟨⟨l, f, hb, hc⟩, hkp, hl.live.mpr (hsn.live hi), congrFun hl.generation i, hl.self.2,
      fun k _ hkn => ?_, fun k hk hkn => absurd hkn (by omega)⟩
    simp only [hl.self.1, secureBzero]
    exact overwrite_of_not_mem (by omega)
  unfold Scma.shrink
  split
  · exact ho _ hr ⟨rfl, rfl, rfl, rfl, rfl, rfl⟩
  · exact ho _ (sound_flags hr true 0) ⟨rfl, rfl, rfl, rfl, rfl, rfl⟩

/-- The last block gets larger, with no free span behind it. -/
theorem Good.extend {b : Book} (h : s.Good l f) (hi : i ∈ l) (ht : s.book.blockEnd i = s.book.usedSize)
    (he : ∀ j ∈ f, s.book.blockEnd j ≤ s.book.usedSize) (hle : s.book.offset i + n ≤ s.book.heapCapacity) (hlt : s.book.size i ≤ n)
    (hb : b = { (s.book.place i (s.book.offset i) n).recomputeUsedSize with liveSize := s.book.liveSize + (n - s.book.size i) }) :
    (∃ l f, Good { s with book := b } l f) ∧ Resized s { s with book := b } i n := by
  have hsn := h.sound
  have hpos := hsn.size_pos hi
  -- all other spans end before the block begins
  have hbf : ∀ j ∈ l ++ f, j ≠ i → s.book.blockEnd j ≤ s.book.offset i := fun j hj hji => by
    have hjn : s.book.blockEnd j ≤ s.book.usedSize := (mem_append.mp hj).elim (hsn.used_le j) (he j)
    have hjp := hsn.spread.pos j hj
    unfold blockEnd at *
    rcases hsn.spread.apart j hj i (mem_append_left f hi) hji with hap | hap <;> omega
  have hp := place_placed (o := s.book.offset i) (n := n) hsn.toPlaced (by omega) hle fun j hj hji => inr (hbf j hj hji)
  have hm := sum_place hsn hi (s.book.offset i) n
  have hr := hp.recompute (n := s.book.liveSize + (n - s.book.size i)) (by omega)
  rw [← hb] at hr
  have hl : Laid s.book b i (s.book.offset i) n := by
    rw [hb]
    exact ⟨rfl, rfl, rfl, rfl, rfl, rfl⟩
  refine ⟨⟨l, f, hr, h.clean.cover hl.capacity.ge fun j hj x hin => ⟨j, hj, hl.inside.mpr ?_⟩⟩,
    hl.keeps fun _ _ _ _ _ => rfl, hl.live.mpr (hsn.live hi), congrFun hl.generation i, hl.self.2,
    fun k _ _ => ?_, fun k hk hkn => ?_⟩
  · split
    · rename_i heq
      subst heq
      unfold Inside blockEnd at hin
      omega
    · exact hin
  · exact congrArg (fun o => s.heap (o + k)) hl.self.1
  · refine (congrArg (fun o => (s.heap (o + k)).data) hl.self.1).trans (h.clean.outside _ fun j hj hin => ?_).1
    have hjn := hsn.used_le j hj
    unfold Inside blockEnd at *
    omega

/-- What comes of a growth: it may fail for want of room, and then all is as it was. -/
def Grows (s : Scma) (i n : ℕ) (out : Scma × Error) : Prop :=
  (∃ l f, out.1.Good l f) ∧
    (out.2 = .success ∧ Resized s out.1 i n ∨ (out.2 = .outOfRange ∨ out.2 = .noMemory) ∧ Keeps (fun _ => True) s out.1)

/-- Growing the last block in place keeps its bytes, or changes nothing. -/
theorem Good.growTail {dis : Bool} (h : s.Good l f) (hi : i ∈ l) (htl : s.isTail i = true) (hlt : s.book.size i ≤ n)
    (hd : dis = false → f = []) (m : Memory) : Grows s i n (s.growTail i n dis m) := by
  unfold Scma.growTail
  split
  · exact ⟨⟨l, f, h⟩, inr ⟨inl rfl, .refl _ s⟩⟩
  · cases hrm : s.ensureCapacity (s.book.offset i + n) m with
    | none => exact ⟨⟨l, f, h⟩, inr ⟨inr rfl, .refl _ s⟩⟩
    | some s₁ =>
      obtain ⟨hg, -, -, -, hsz, -⟩ := h.ensureCapacity (p := fun _ => True) hrm
      obtain ⟨f', ht, he⟩ : ∃ f', Thins s₁.book
          (if dis = true then s₁.book.discardFreeSpansFrom s₁.book.usedSize else s₁.book) f f' ∧
          ∀ j ∈ f', s₁.book.blockEnd j ≤ s₁.book.usedSize := by
        cases dis with
        | true => exact hg.sound.discardFrom s₁.book.usedSize
        | false =>
          obtain rfl := hd rfl
          exact ⟨[], .refl hg.sound.free, fun j hj => absurd hj not_mem_nil⟩
      have hr := h.roomy hrm ht he
      simp only
      generalize (if dis = true then s₁.book.discardFreeSpansFrom s₁.book.usedSize else s₁.book) = d at hr ⊢
      have hplace := hr.place i hi
      have hend : d.blockEnd i = d.usedSize := by
        simp only [isTail, Bool.and_eq_true, decide_eq_true_eq, beq_iff_eq] at htl
        rw [blockEnd, hplace.1, hplace.2, hr.used]
        omega
      obtain ⟨hg', hrs⟩ := hr.good.extend (n := n) hi hend hr.ends (hplace.1 ▸ hr.capacity) (hplace.2 ▸ hlt) rfl
      rw [hsz, ← hplace.2]
      exact ⟨hg', inl ⟨rfl, hrs.of_keeps hr.keeps (h.sound.live hi)⟩⟩

/-- A block goes to the end of the used part, and to the end of the live list. -/
theorem relink_placed {b : Book} (hb : b.Sound l f) (hi : i ∈ l) (hn : 0 < n) (hle : b.usedSize + n ≤ b.heapCapacity)
    (he : ∀ j ∈ f, b.blockEnd j ≤ b.usedSize) :
    ((b.unlinkBlock i).place i b.usedSize n).linkBlockAtTail i =
        { b.place i b.usedSize n with liveList := (b.liveList.unlink i).append i } ∧
      Placed { b.place i b.usedSize n with liveList := (b.liveList.unlink i).append i } (l.erase i ++ [i]) f := by
  have hm : ∀ j, j ∈ l.erase i ++ [i] ↔ j ∈ l := fun j => by
    rw [mem_append, mem_singleton, hb.list.2.2.mem_erase_iff]
    by_cases hji : j = i
    · simp [hji, hi]
    · simp [hji]
  have hu := unlink_is hb.list hi
  have ht : i ∉ l.erase i := hb.list.2.2.not_mem_erase
  have hp := place_placed (i := i) (o := b.usedSize) hb.toPlaced hn hle fun j hj _ =>
    inr ((mem_append.mp hj).elim (hb.used_le j) (he j))
  refine ⟨?_, hu.append ht, hb.free, fun j => (hm j).trans (hb.mem_list j), hb.idle, hp.spread.subset fun j hj => ?_,
    hb.capacity, hb.table, hb.generation, hb.cursor⟩
  · rw [unlinkBlock_eq hb.list (fun j hj => hb.live hj) hi]
    exact linkBlockAtTail_eq hu (fun j hj => hb.live (mem_of_mem_erase hj)) (hb.live hi)
  · exact mem_append.mpr ((mem_append.mp hj).imp_left (hm j).mp)

/-- A block is copied to the end of the used part, and its old place is wiped. -/
theorem Good.transfer (h : s.Good l f) (hi : i ∈ l) (hlt : s.book.size i < n) (hle : s.book.usedSize + n ≤ s.book.heapCapacity)
    (he : ∀ j ∈ f, s.book.blockEnd j ≤ s.book.usedSize)
    (hs' : s' = { (s.moveBytes s.book.usedSize (s.book.offset i) (s.book.size i)).secureBzero (s.book.offset i) (s.book.size i) with
      book := { (((s.book.unlinkBlock i).place i s.book.usedSize n).linkBlockAtTail i).recomputeUsedSize with
        liveSize := s.book.liveSize + (n - s.book.size i), compactionNeeded := true }.resetCompaction }) :
    (∃ l f, s'.Good l f) ∧ Resized s s' i n := by
  have hsn := h.sound
  have hpos := hsn.size_pos hi
  obtain ⟨hln, hp⟩ := relink_placed hsn hi (by omega) hle he
  rw [hln] at hs'
  have hm := sum_place hsn hi s.book.usedSize n
  have hpr : (l.erase i ++ [i]).Perm l := perm_append_comm.trans (perm_cons_erase hi).symm
  have hr := sound_flags (hp.recompute (n := s.book.liveSize + (n - s.book.size i)) (by
    have hmv := (hpr.map (s.book.place i s.book.usedSize n).size).sum_eq
    simp only [place] at hm hmv ⊢
    omega)) true 0
  have hl : Laid s.book s'.book i s.book.usedSize n := by
    rw [hs']
    exact ⟨rfl, rfl, rfl, rfl, rfl, rfl⟩
  have hd := hsn.used_le i hi
  rw [blockEnd] at hd
  -- the heap afterwards: the block at its new place, zeros at the old one, and the rest
  have hh : s'.heap = overwrite (overwrite s.heap s.book.usedSize (s.book.size i) fun k => s.heap (s.book.offset i + k))
      (s.book.offset i) (s.book.size i) fun _ => ⟨0, false⟩ := by
    rw [hs']
    rfl
  have ht : s'.touched = overwrite (overwrite s.touched s.book.usedSize (s.book.size i) fun _ => true)
      (s.book.offset i) (s.book.size i) fun _ => true := by
    rw [hs']
    rfl
  have hrs : ∀ x, ¬(s.book.offset i ≤ x ∧ x < s.book.offset i + s.book.size i) →
      ¬(s.book.usedSize ≤ x ∧ x < s.book.usedSize + s.book.size i) → s'.heap x = s.heap x ∧ s'.touched x = s.touched x :=
    fun x hx hx' => by
      rw [hh, ht, overwrite_of_not_mem (by omega), overwrite_of_not_mem (by omega), overwrite_of_not_mem (by omega),
        overwrite_of_not_mem (by omega)]
      exact ⟨rfl, rfl⟩
  have ho : ∀ j ∈ l, ∀ k < s.book.size j, j ≠ i → s'.heap (s.book.offset j + k) = s.heap (s.book.offset j + k) :=
    fun j hj k hk hji => by
      have hje := hsn.used_le j hj
      rw [blockEnd] at hje
      refine (hrs _ (fun hin => ?_) (by omega)).1
      rcases hsn.spread_live.apart j hj i hi hji with hap | hap <;> omega
  refine ⟨⟨l.erase i ++ [i], f, by rw [hs']; exact hr, fun x hx => ?_, fun x hx => ?_⟩,
    hl.keeps fun j hj hlive k hk => ho j (hsn.mem hlive) k hk hj, hl.live.mpr (hsn.live hi),
    congrFun hl.generation i, hl.self.2, fun k hk _ => ?_, fun k hk hkn => ?_⟩
  · have hin := hx i mem_concat_self
    rw [hl.inside, if_pos rfl] at hin
    by_cases hold : s.book.offset i ≤ x ∧ x < s.book.offset i + s.book.size i
    · rw [hh, overwrite_of_mem hold]
      exact ⟨rfl, fun _ => rfl⟩
    · obtain ⟨hh', ht'⟩ := hrs x hold (by omega)
      rw [hh', ht']
      refine h.clean.outside x fun j hj hjn => ?_
      by_cases hji : j = i
      · exact hold (hji ▸ hjn)
      · refine hx j (mem_append_left _ (hsn.list.2.2.mem_erase_iff.mpr ⟨hji, hj⟩)) (hl.inside.mpr ?_)
        rwa [if_neg hji]
  · rw [hl.capacity]
    by_cases hin : x < s.book.usedSize + n
    · omega
    · rw [(hrs x (by omega) (by omega)).2] at hx
      exact h.clean.touched x hx
  · rw [hl.self.1, hh, overwrite_of_not_mem (by omega), overwrite_add hk]
  · rw [hl.self.1, (hrs _ (by omega) (by omega)).1]
    refine (h.clean.outside _ fun j hj hin => ?_).1
    have hje := hsn.used_le j hj
    unfold Inside at hin
    omega

/-- Moving a block to grow it keeps its bytes, or changes nothing. -/
theorem Good.relocate (h : s.Good l f) (hi : i ∈ l) (hlt : s.book.size i < n) (m : Memory) : Grows s i n (s.relocate i n m) := by
  unfold Scma.relocate
  cases hrm : s.ensureCapacity (s.book.usedSize + n) m with
  | none => exact ⟨⟨l, f, h⟩, inr ⟨inr rfl, .refl _ s⟩⟩
  | some s₁ =>
    obtain ⟨hg, -, -, ho, hsz, hu, -⟩ := h.ensureCapacity (p := fun _ => True) hrm
    obtain ⟨f', ht, he⟩ := hg.sound.discardFrom s₁.book.usedSize
    have hr := h.roomy hrm ht he
    simp only
    generalize s₁.book.discardFreeSpansFrom s₁.book.usedSize = d at hr ⊢
    obtain ⟨ho', hs'⟩ := hr.place i hi
    obtain ⟨hg', hrs⟩ := hr.good.transfer (n := n) hi (hs' ▸ hlt) (hr.used ▸ hr.capacity) hr.ends rfl
    rw [ho, hsz, hu, ← ho', ← hs', ← hr.used]
    exact ⟨hg', inl ⟨rfl, hrs.of_keeps hr.keeps (h.sound.live hi)⟩⟩

theorem Grows.of_keeps {out : Scma × Error} (hk : Keeps (fun _ => True) s s₁) (hi : s.book.Live i)
    (h : Grows s₁ i n out) : Grows s i n out :=
  ⟨h.1, h.2.imp (fun h => ⟨h.1, h.2.of_keeps hk hi⟩) fun h => ⟨h.1, hk.trans h.2⟩⟩

/-- A resize succeeds or keeps the blocks, and a smaller size always succeeds. -/
theorem Good.resize (hs : s.Good l f) (hn : n ≠ 0) (hv : s.book.validateHandle h = true) (m : Memory) :
    Grows s h.index n (s.resize h n m) ∧ (n ≤ s.book.size h.index → (s.resize h n m).2 = .success) := by
  have hi := hs.mem_of_valid hv
  have hlive := hs.sound.live hi
  unfold Scma.resize
  rw [if_neg hn, if_neg (by rw [hv]; exact Bool.false_ne_true.symm)]
  simp only [hs.sound.recompute_eq]
  split
  · rename_i heq
    exact ⟨⟨⟨l, f, hs⟩, inl ⟨rfl, .refl _ s, hlive, rfl, heq.symm, fun _ _ _ => rfl, fun k hk hkn => absurd hkn (by omega)⟩⟩,
      fun _ => rfl⟩
  · split
    · rename_i hlt
      obtain ⟨hg, hr⟩ := hs.shrink hi (pos_of_ne_zero hn) hlt
      exact ⟨⟨hg, inl ⟨rfl, hr⟩⟩, fun _ => rfl⟩
    · rename_i hne hnlt
      have hlt : s.book.size h.index < n := by omega
      refine ⟨?_, fun hle => absurd hle (not_le.mpr hlt)⟩
      split
      · rename_i ht
        exact hs.growTail hi ht hlt.le (fun hf => absurd hf.symm Bool.false_ne_true) m
      · split
        · exact ⟨⟨l, f, hs⟩, inr ⟨inl rfl, .refl _ s⟩⟩
        · split
          · obtain ⟨s₁, hc, hfn⟩ := hs.compact
            simp only [hc, Bool.true_eq_false, if_false]
            have hl1 : s₁.book.size h.index < n := (hfn.keeps.size _ trivial hlive).trans_lt hlt
            split
            · rename_i ht
              exact (hfn.good.growTail hi ht hl1.le (fun _ => rfl) m).of_keeps hfn.keeps hlive
            · split
              · exact ⟨⟨l, [], hfn.good⟩, inr ⟨inl rfl, hfn.keeps⟩⟩
              · exact (hfn.good.relocate hi hl1 m).of_keeps hfn.keeps hlive
          · exact hs.relocate hi hlt m

/-! ## Writing -/

/-- What the checks of a request find. -/
theorem validateRequest_cases (s : Scma) (h : Handle) (ptr : Bool) (o n : ℕ) :
    (s.validateRequest h ptr o n = .invalidHandle ∧ s.book.validateHandle h = false) ∨
      (s.validateRequest h ptr o n = .invalidPointer ∧ s.book.validateHandle h = true ∧ ptr = false) ∨
      (s.validateRequest h ptr o n = .outOfRange ∧ s.book.validateHandle h = true ∧ ptr = true ∧ s.book.size h.index < o + n) ∨
      s.validateRequest h ptr o n = .success ∧ s.book.validateHandle h = true ∧ ptr = true ∧ o + n ≤ s.book.size h.index := by
  unfold validateRequest
  split
  · rename_i hv
    exact inl ⟨rfl, hv⟩
  · rename_i hv
    rw [Bool.not_eq_false] at hv
    split
    · rename_i hp
      exact inr (inl ⟨rfl, hv, hp⟩)
    · rename_i hp
      rw [Bool.not_eq_false] at hp
      split
      · exact inr (inr (inl ⟨rfl, hv, hp, by omega⟩))
      · exact inr (inr (inr ⟨rfl, hv, hp, by omega⟩))

/-- A request that is accepted lies within a live block. -/
theorem validateRequest_eq {ptr : Bool} {o : ℕ} (hv : s.validateRequest h ptr o n = .success) :
    s.book.validateHandle h = true ∧ ptr = true ∧ o + n ≤ s.book.size h.index := by
  rcases s.validateRequest_cases h ptr o n with ⟨he, _⟩ | ⟨he, _⟩ | ⟨he, _⟩ | ⟨_, ha⟩
  · exact absurd (he.symm.trans hv) (by decide)
  · exact absurd (he.symm.trans hv) (by decide)
  · exact absurd (he.symm.trans hv) (by decide)
  · exact ha

/-- A part of a block has been written. -/
structure Written (s s' : Scma) (i o : ℕ) (source : List UInt8) : Prop where
  book : s'.book = s.book
  keeps : Keeps (· ≠ i) s s'
  cell : ∀ k < s.book.size i, s'.heap (s.book.offset i + k) =
    if o ≤ k ∧ k < o + source.length then ⟨source.getD (k - o) 0, true⟩ else s.heap (s.book.offset i + k)

/-- A write changes the bytes of its range and nothing else. -/
theorem Good.write {src : List UInt8} {o : ℕ} (hs : s.Good l f) (hv : s.validateRequest h true o src.length = .success) :
    (s.write h o (some src)).2 = .success ∧ (∃ l f, (s.write h o (some src)).1.Good l f) ∧
      Written s (s.write h o (some src)).1 h.index o src := by
  obtain ⟨hvl, _, hrg⟩ := validateRequest_eq hv
  have hsn := hs.sound
  have hi := hs.mem_of_valid hvl
  -- addresses outside the block are outside the part that is written
  have ho : ∀ x, ¬s.book.Inside h.index x → x < s.book.offset h.index + o ∨ s.book.offset h.index + o + src.length ≤ x :=
    fun x hx => by
      unfold Inside blockEnd at hx
      omega
  obtain ⟨hc, hkp⟩ := hs.alter (b := s.book) hi rfl rfl (fun _ _ => .rfl) (fun _ _ => rfl)
    (fun j hj _ => ⟨hj, rfl, rfl⟩) (fun x hx => ⟨overwrite_of_not_mem (ho x hx), overwrite_of_not_mem (ho x hx)⟩)
    fun x hin hx => absurd hin (hx _ hi)
  simp only [Scma.write, Option.isSome_some, Option.getD_some, hv]
  refine ⟨trivial, ⟨l, f, hsn, hc⟩, rfl, hkp, fun k hk => ?_⟩
  simp only
  split
  · rename_i hk
    rw [overwrite_of_mem (by omega), show s.book.offset h.index + k - (s.book.offset h.index + o) = k - o by omega]
  · rename_i hk
    exact overwrite_of_not_mem (by omega)

/-! ## Sessions -/

/-- A stale handle is not freed. -/
theorem free_invalid (hv : s.book.validateHandle h = false) : s.free h = (s, .invalidHandle) := if_pos hv

theorem resize_zero (h : Handle) (m : Memory) : s.resize h 0 m = (s, .invalidArgument) := if_pos rfl

/-- A stale handle is not resized. -/
theorem resize_invalid (hn : n ≠ 0) (hv : s.book.validateHandle h = false) (m : Memory) : s.resize h n m = (s, .invalidHandle) := by
  rw [resize, if_neg hn, if_pos hv]

/-- A request that is refused writes nothing. -/
theorem write_error {o : ℕ} {src : Option (List UInt8)} {e : Error}
    (hv : s.validateRequest h src.isSome o (src.getD []).length = e) (he : e ≠ .success) : s.write h o src = (s, e) := by
  unfold write
  rw [hv]
  cases e <;> first | rfl | exact absurd rfl he

/-- Every call leaves the allocator in order. -/
theorem Good.call (hs : s.Good l f) (c : Call) (m : Memory) : ∃ l f, (s.call c m).1.Good l f := by
  have hsm : ∀ {s'}, s' = s → ∃ l f, s'.Good l f := fun heq => ⟨l, f, heq ▸ hs⟩
  cases c with
  | allocate n => exact (hs.allocate n m).1
  | free h =>
    cases hv : s.book.validateHandle h with
    | false => exact hsm (congrArg fst (free_invalid hv))
    | true => exact (hs.free hv).1
  | resize h n =>
    by_cases hn : n = 0
    · subst hn
      exact hsm (congrArg fst (resize_zero h m))
    · cases hv : s.book.validateHandle h with
      | false => exact hsm (congrArg fst (resize_invalid hn hv m))
      | true => exact (hs.resize hn hv m).1.1
  | write h o src =>
    by_cases hv : s.validateRequest h src.isSome o (src.getD []).length = .success
    · cases src with
      | none => exact absurd (validateRequest_eq hv).2.1 Bool.false_ne_true
      | some src => exact (hs.write hv).2.1
    · exact hsm (congrArg fst (write_error rfl hv))
  | read h o n dst => exact ⟨l, f, hs⟩

/-- Every session keeps the heap good. -/
theorem Good.run (hs : s.Good l f) (cs : List (Call × Memory)) : ∃ l f, (s.run cs).1.Good l f := by
  induction cs generalizing s l f with
  | nil => exact ⟨l, f, hs⟩
  | cons c cs ih =>
    obtain ⟨l', f', hs'⟩ := hs.call c.1 c.2
    exact ih hs'

/-- A fresh heap is good, with no block. -/
theorem good_initialized (cap : UInt64) (garbage : ℕ → UInt8) : (initialized cap garbage).Good [] [] := by
  have hy : (initialized cap garbage).book.heapCapacity ≤ sizeMax := by
    unfold initialized sizeMax
    simp only
    split
    · decide
    · exact le_of_lt_succ cap.toNat_lt
  refine ⟨⟨⟨⟨rfl, rfl, nodup_nil⟩, ⟨rfl, nodup_nil⟩, fun i => ?_, fun i hi => absurd hi not_mem_nil, .nil, hy,
    ⟨le_rfl, zero_le _⟩, fun i hi => absurd hi (not_lt_zero i), rfl⟩, fun i hi => absurd hi not_mem_nil, inl rfl, rfl⟩,
    ⟨fun x _ => ⟨rfl, nofun⟩, fun x hx => absurd hx Bool.false_ne_true⟩⟩
  exact ⟨fun hi => absurd hi not_mem_nil, fun hi => absurd hi.1 (not_lt_zero i)⟩

end Scma

end Libft.SCMA
