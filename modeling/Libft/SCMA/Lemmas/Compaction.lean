import Libft.SCMA.Lemmas.Books

/-!
# Compaction

The blocks are moved down one after the other, in the order of their offsets. `Packing` is what holds while this is going on: the blocks
before the cursor fill the heap up to the target, the others are where they were, and every block has its contents. At the end the rest
of what was used is wiped.
-/

namespace Libft.SCMA

open Book Function List Or Nat

namespace Book

/-- An address of the block. -/
def Inside (b : Book) (i x : ℕ) : Prop := b.offset i ≤ x ∧ x < b.blockEnd i

variable {b : Book} {l f : List ℕ}

/-- Books that agree on a block agree on what is inside it. -/
theorem Same.inside {b' : Book} {i x : ℕ} (h : Same b b') (hi : b.Live i) : b'.Inside i x ↔ b.Inside i x := by
  unfold Inside blockEnd
  rw [(h.place i hi).1, (h.place i hi).2]

/-- The block that is selected is the one with the least offset. -/
theorem select_spec (b : Book) (p : ℕ → Bool) :
    (b.selectCompactionBlock p = none ∧ ∀ i, b.Live i → p (b.offset i) = true → sizeMax ≤ b.offset i) ∨
      ∃ c, b.selectCompactionBlock p = some c ∧ b.Live c ∧ p (b.offset c) = true ∧
        ∀ i, b.Live i → p (b.offset i) = true → b.offset c ≤ b.offset i := by
  have hfl : ∀ n ≤ b.blockCount, ∀ best, best = (range n).foldl (fun (best : Option ℕ × ℕ) i =>
      if b.inUse i = true ∧ p (b.offset i) = true ∧ b.offset i < best.2 then (some i, b.offset i) else best) (none, sizeMax) →
      (best = (none, sizeMax) ∨ ∃ c, best = (some c, b.offset c) ∧ b.Live c ∧ p (b.offset c) = true) ∧
        ∀ i < n, b.inUse i = true → p (b.offset i) = true → best.2 ≤ b.offset i := by
    intro n
    induction n with
    | zero => exact fun _ best hb => ⟨inl hb, fun i hi => absurd hi (not_lt_zero i)⟩
    | succ n ih =>
      intro hn best hb
      obtain ⟨hf, hl⟩ := ih (le_of_succ_le hn) _ rfl
      rw [range_succ, foldl_concat] at hb
      split at hb
      · rename_i hc
        subst hb
        refine ⟨inr ⟨n, rfl, ⟨hn, hc.1⟩, hc.2.1⟩, fun i hi hu hp => ?_⟩
        rcases Nat.lt_succ_iff_lt_or_eq.mp hi with hi | rfl
        · exact hc.2.2.le.trans (hl i hi hu hp)
        · exact le_rfl
      · rename_i hc
        subst hb
        refine ⟨hf, fun i hi hu hp => ?_⟩
        rcases Nat.lt_succ_iff_lt_or_eq.mp hi with hi | rfl
        · exact hl i hi hu hp
        · exact not_lt.mp fun hlt => hc ⟨hu, hp, hlt⟩
  obtain ⟨hf, hl⟩ := hfl b.blockCount le_rfl _ rfl
  rcases hf with heq | ⟨c, heq, hlv, hp⟩
  · refine inl ⟨congrArg Prod.fst heq, fun i hi hpi => ?_⟩
    have := hl i hi.1 hi.2 hpi
    rwa [heq] at this
  · refine inr ⟨c, congrArg Prod.fst heq, hlv, hp, fun i hi hpi => ?_⟩
    have := hl i hi.1 hi.2 hpi
    rwa [heq] at this

/-- The search finds the first block behind an offset, or there is none. -/
theorem findNext_spec (b : Book) (o : ℕ → ℕ) (q : ℕ) :
    (findNextCompactionBlock { b with offset := o } q = none ∧ ∀ i, b.Live i → q < o i → sizeMax ≤ o i) ∨
      ∃ d, findNextCompactionBlock { b with offset := o } q = some d ∧ b.Live d ∧ q < o d ∧
        ∀ i, b.Live i → q < o i → o d ≤ o i := by
  rcases select_spec { b with offset := o } (fun x => q < x) with ⟨hno, hf⟩ | ⟨d, hs, hlv, hp, hl⟩
  · exact inl ⟨hno, fun i hi hlt => hf i hi (decide_eq_true hlt)⟩
  · exact inr ⟨d, hs, hlv, of_decide_eq_true hp, fun i hi hlt => hl i hi (decide_eq_true hlt)⟩

/-! ## The live list is found in order -/

/-- The walk over the links counts the blocks and their sizes. -/
theorem validateLinks_eq {l1 l2 : List ℕ} {n : ℕ} (vis linked : ℕ) (hl : b.liveList.Is (l1 ++ l2)) (hlv : ∀ i ∈ l2, b.Live i)
    (he : ∀ i ∈ l2, b.blockEnd i ≤ b.usedSize) (hs : linked + (l2.map b.size).sum ≤ sizeMax) (hn : l2.length ≤ n) :
    b.validateLinks n l2.head? l1.getLast? vis linked = some (vis + l2.length, linked + (l2.map b.size).sum) := by
  induction l2 generalizing l1 n vis linked with
  | nil =>
    rw [append_nil] at hl
    rw [head?_nil, validateLinks, if_pos hl.last.symm]
    rfl
  | cons i l2 ih =>
    obtain ⟨n, rfl⟩ := Nat.exists_eq_add_of_le' (Nat.le_trans (Nat.succ_le_succ (Nat.zero_le _)) hn)
    have hi := hlv i mem_cons_self
    have hd := he i mem_cons_self
    rw [map_cons, sum_cons] at hs
    rw [blockEnd] at hd
    rw [head?_cons, validateLinks, if_neg (by simp [hi.1, hi.2, hl.prev_eq]), if_neg (by omega), if_neg (by omega), hl.next_eq]
    rw [append_cons] at hl
    have hr := ih (vis + 1) (linked + b.size i) hl (forall_mem_cons.mp hlv).2
      (forall_mem_cons.mp he).2 (by omega) (le_of_succ_le_succ hn)
    rw [getLast?_concat] at hr
    rw [hr, length_cons, map_cons, sum_cons, add_right_comm, add_assoc linked, add_assoc vis]

/-- The loop over the table counts what is in use. -/
theorem countInUse_eq (b : Book) {r : List ℕ} (cnt size : ℕ) (hs : size + ((r.filter b.inUse).map b.size).sum ≤ sizeMax) :
    b.countInUse r cnt size = some (cnt + (r.filter b.inUse).length, size + ((r.filter b.inUse).map b.size).sum) := by
  induction r generalizing cnt size with
  | nil => rfl
  | cons i r ih =>
    rw [countInUse]
    cases huse : b.inUse i with
    | true =>
      rw [filter_cons_of_pos huse, map_cons, sum_cons] at hs ⊢
      rw [if_pos rfl, if_neg (by omega), ih _ _ (by omega), length_cons]
      congr 2 <;> omega
    | false =>
      have hn : ¬b.inUse i = true := by rw [huse]; exact Bool.false_ne_true
      rw [filter_cons_of_neg hn] at hs ⊢
      rw [if_neg Bool.false_ne_true]
      exact ih cnt size hs

/-- The check before a compaction passes on sound lists. -/
theorem validateLiveList_eq (hls : b.liveList.Is l) (hm : ∀ i, i ∈ l ↔ b.Live i) (he : ∀ i ∈ l, b.blockEnd i ≤ b.usedSize)
    (hs : b.liveSize = (l.map b.size).sum) (hle : b.liveSize ≤ sizeMax) : b.validateLiveList = true := by
  have hp : l.Perm ((range b.blockCount).filter b.inUse) :=
    (perm_ext_iff_of_nodup hls.2.2 (nodup_range.filter _)).mpr fun i => by
      rw [hm, mem_filter, mem_range, Live]
  have hsum : (((range b.blockCount).filter b.inUse).map b.size).sum = b.liveSize := (hp.map b.size).sum_eq.symm.trans hs.symm
  have hn : l.length ≤ b.blockCount := by
    rw [hp.length_eq]
    exact (length_filter_le _ _).trans length_range.le
  have hf : b.liveList.first = l.head? := hls.1.head
  have hw : b.liveList.Is ([] ++ l) := hls
  have hl := validateLinks_eq 0 0 hw (fun i hi => (hm i).mp hi) he (by omega) hn
  have hc := b.countInUse_eq 0 0 (r := range b.blockCount) (by omega)
  have he' : b.liveList.first.isNone = b.liveList.last.isNone := by
    rw [hf, hls.last]
    cases l <;> simp
  rw [getLast?_nil, ← hf] at hl
  rw [validateLiveList, if_neg (by rw [he']; exact fun h => h rfl), hl, hc, hsum, ← hp.length_eq, ← hs]
  simp

end Book

/-! ## What is left of the contents -/

/-- Where there is no live block, there is nothing that a caller has written, and every byte that has been written to is zero. -/
structure Scma.Clean (s : Scma) (l : List ℕ) : Prop where
  outside : ∀ x, (∀ i ∈ l, ¬s.book.Inside i x) → (s.heap x).data = false ∧ (s.touched x = true → (s.heap x).value = 0)
  touched : ∀ x, s.touched x = true → x < s.book.heapCapacity

/-- The allocator between two calls. -/
structure Scma.Good (s : Scma) (l f : List ℕ) : Prop where
  sound : s.book.Sound l f
  clean : s.Clean l

/-- Some records are as they were: in use or not, of the same generation, and with the same contents. -/
structure Scma.Keeps (p : ℕ → Prop) (s s' : Scma) : Prop where
  count : s.book.blockCount ≤ s'.book.blockCount
  live : ∀ i, p i → (s'.book.Live i ↔ s.book.Live i)
  generation : ∀ i, p i → i < s.book.blockCount → s'.book.generation i = s.book.generation i
  size : ∀ i, p i → s.book.Live i → s'.book.size i = s.book.size i
  cell : ∀ i, p i → s.book.Live i → ∀ k < s.book.size i, s'.heap (s'.book.offset i + k) = s.heap (s.book.offset i + k)

namespace Scma

variable {p : ℕ → Prop} {s s' s'' s₀ : Scma} {l f : List ℕ} {b : Book}

theorem Keeps.refl (p : ℕ → Prop) (s : Scma) : Keeps p s s :=
  ⟨le_rfl, fun _ _ => Iff.rfl, fun _ _ _ => rfl, fun _ _ _ => rfl, fun _ _ _ _ _ => rfl⟩

theorem Keeps.trans (h : Keeps p s s') (h' : Keeps p s' s'') : Keeps p s s'' where
  count := h.count.trans h'.count
  live i hi := (h'.live i hi).trans (h.live i hi)
  generation i hi hlt := (h'.generation i hi (hlt.trans_le h.count)).trans (h.generation i hi hlt)
  size i hi hl := (h'.size i hi ((h.live i hi).mpr hl)).trans (h.size i hi hl)
  cell i hi hl k hk :=
    (h'.cell i hi ((h.live i hi).mpr hl) k (by rwa [h.size i hi hl])).trans (h.cell i hi hl k hk)

theorem Keeps.mono {q : ℕ → Prop} (h : Keeps p s s') (hqp : ∀ i, q i → p i) : Keeps q s s' where
  count := h.count
  live i hi := h.live i (hqp i hi)
  generation i hi := h.generation i (hqp i hi)
  size i hi := h.size i (hqp i hi)
  cell i hi := h.cell i (hqp i hi)

/-- A book with the same blocks in the same places. -/
theorem Keeps.of_same (h : s.book.Same b) : Keeps p s { s with book := b } where
  count := h.count
  live i _ := h.live i
  generation i _ := h.generation i
  size i _ hi := (h.place i hi).2
  cell i _ hi k _ := congrArg (fun o => s.heap (o + k)) (h.place i hi).1

/-- Wiped cells stay wiped when only the books change. -/
theorem Clean.of_same (h : s.Clean l) (hs : s.book.Same b) (hm : ∀ i ∈ l, s.book.Live i) : Clean { s with book := b } l where
  outside x hx := h.outside x fun i hi hin => hx i hi ((hs.inside (hm i hi)).mpr hin)
  touched x hx := hs.capacity ▸ h.touched x hx

/-! ## In the middle of a compaction -/

/-- The allocator in the middle of a compaction that began as `s₀`. -/
def midway (s₀ : Scma) (offset : ℕ → ℕ) (tgt : ℕ) (cursor : Option ℕ) (heap : ℕ → Cell) (touched : ℕ → Bool) : Scma :=
  ⟨{ s₀.book.dropFreeSpans with offset := offset, compactionTarget := tgt, compactionCursor := cursor }, heap, touched⟩

/-- A block that has not been moved: it does not lie before the one of the cursor. -/
def Undone (s₀ : Scma) (cursor : Option ℕ) (i : ℕ) : Prop := ∃ c, cursor = some c ∧ s₀.book.offset c ≤ s₀.book.offset i

/-- The invariant of a compaction: what is packed, the block that is next, and the cells. -/
structure Packing (s₀ : Scma) (l : List ℕ) (offset : ℕ → ℕ) (tgt : ℕ) (cursor : Option ℕ) (heap : ℕ → Cell)
    (touched : ℕ → Bool) : Prop where
  spread : Spread offset s₀.book.size s₀.book.usedSize l
  packed : ∀ i ∈ l, ¬Undone s₀ cursor i → offset i + s₀.book.size i ≤ tgt
  waits : ∀ i ∈ l, Undone s₀ cursor i → offset i = s₀.book.offset i
  room : ∀ c, cursor = some c → c ∈ l ∧ tgt ≤ s₀.book.offset c
  covered : ∀ x < tgt, ∃ i ∈ l, offset i ≤ x ∧ x < offset i + s₀.book.size i
  cells : ∀ i ∈ l, ∀ k < s₀.book.size i, heap (offset i + k) = s₀.heap (s₀.book.offset i + k)
  beyond : ∀ x, s₀.book.usedSize ≤ x → heap x = s₀.heap x ∧ touched x = s₀.touched x

/-- How far it is from the cursor to the end of the used part. -/
def left (s₀ : Scma) : Option ℕ → ℕ
  | none => 0
  | some c => s₀.book.usedSize - s₀.book.offset c

/-- What is left to move is within the used part. -/
theorem left_le (s₀ : Scma) (cursor : Option ℕ) : left s₀ cursor ≤ s₀.book.usedSize := by
  cases cursor with
  | none => exact zero_le _
  | some c => exact sub_le _ _

variable {offset : ℕ → ℕ} {tgt c : ℕ} {cursor : Option ℕ} {heap : ℕ → Cell} {touched : ℕ → Bool} {n : ℕ}

theorem dropFree_size (h₀ : s₀.book.Sound l f) {i : ℕ} (hi : i ∈ l) : s₀.book.dropFreeSpans.size i = s₀.book.size i :=
  (thins_drop s₀.book f).size_eq (inl (h₀.live hi).2)

/-- A round of the loop, in the middle of a compaction. -/
theorem compactStep_midway (offset : ℕ → ℕ) (tgt : ℕ) (cursor : Option ℕ) (heap : ℕ → Cell) (touched : ℕ → Bool)
    (h₀ : s₀.book.Sound l f) (hc : c ∈ l) : ∃ touched',
    (midway s₀ offset tgt cursor heap touched).compactStep c = midway s₀ (update offset c tgt)
      (tgt + s₀.book.size c)
      (findNextCompactionBlock { s₀.book with offset := update offset c tgt } (offset c))
      (overwrite heap tgt (s₀.book.size c) fun k => heap (offset c + k)) touched' ∧
    ∀ x, tgt + s₀.book.size c ≤ x → touched' x = touched x := by
  have hs := dropFree_size h₀ hc
  by_cases heq : offset c = tgt
  · refine ⟨touched, ?_, fun _ _ => rfl⟩
    have hu : update offset c tgt = offset := by rw [← heq, update_eq_self]
    have hh : overwrite heap tgt (s₀.book.size c) (fun k => heap (offset c + k)) = heap := by
      rw [heq]
      exact overwrite_self heap tgt _
    rw [hu, hh]
    unfold compactStep midway
    simp only [heq, ne_eq, not_true_eq_false, if_false, hs]
    rfl
  · refine ⟨overwrite touched tgt (s₀.book.size c) fun _ => true, ?_, fun x hx => overwrite_of_not_mem (inr hx)⟩
    unfold compactStep midway
    simp only [ne_eq, heq, not_false_eq_true, if_true, hs]
    rfl

namespace Packing

/-- A block that waits lies behind the one of the cursor. -/
theorem behind (h₀ : s₀.book.Sound l f) {i : ℕ} (hc : c ∈ l) (hi : i ∈ l) (hic : i ≠ c)
    (hle : s₀.book.offset c ≤ s₀.book.offset i) : s₀.book.offset c + s₀.book.size c ≤ s₀.book.offset i := by
  have hp := h₀.size_pos hi
  rcases h₀.spread_live.apart c hc i hi (Ne.symm hic) with hap | hap <;> omega

section

variable (h : Packing s₀ l offset tgt (some c) heap touched) (h₀ : s₀.book.Sound l f)

include h h₀

/-- The blocks that wait after a round are those that waited before, but for the one that has been moved. -/
theorem undone_next {next : Option ℕ} (hnx : next = findNextCompactionBlock { s₀.book with offset := update offset c tgt } (offset c)) :
    (∀ i ∈ l, Undone s₀ next i ↔ Undone s₀ (some c) i ∧ i ≠ c) ∧
      ∀ d, next = some d → d ∈ l ∧ s₀.book.offset c < s₀.book.offset d := by
  obtain ⟨hc, hr⟩ := h.room c rfl
  have hsl : offset c = s₀.book.offset c := h.waits c hc ⟨c, rfl, le_rfl⟩
  -- what the search looks at: a block is behind the one that has been moved if it still waits
  have hcn : ∀ i ∈ l, offset c < update offset c tgt i ↔ Undone s₀ (some c) i ∧ i ≠ c := by
    intro i hi
    by_cases hic : i = c
    · subst hic
      rw [update_self]
      exact ⟨fun hlt => by omega, fun hu => absurd rfl hu.2⟩
    · rw [update_of_ne hic]
      by_cases hu : Undone s₀ (some c) i
      · obtain ⟨_, ⟨⟩, hle⟩ := hu
        have hb := behind h₀ hc hi hic hle
        have hpos := h₀.size_pos hc
        have hwt := h.waits i hi ⟨c, rfl, hle⟩
        exact ⟨fun _ => ⟨⟨c, rfl, hle⟩, hic⟩, fun _ => by omega⟩
      · have hp := h.packed i hi hu
        exact ⟨fun hlt => by omega, fun hu' => absurd hu'.1 hu⟩
  have hw : ∀ i ∈ l, Undone s₀ (some c) i ∧ i ≠ c → update offset c tgt i = s₀.book.offset i := fun i hi hu => by
    rw [update_of_ne hu.2, h.waits i hi hu.1]
  rcases findNext_spec s₀.book (update offset c tgt) (offset c) with ⟨hno, hf⟩ | ⟨d, hs, hlv, hlt, hl⟩
  · subst hnx
    rw [hno]
    refine ⟨fun i hi => ⟨?_, fun hu => ?_⟩, nofun⟩
    · rintro ⟨_, ⟨⟩, _⟩
    · have hm := hf i (h₀.live hi) ((hcn i hi).mpr hu)
      rw [hw i hi hu] at hm
      exact absurd hm (not_le.mpr (h₀.offset_lt hi))
  · subst hnx
    rw [hs]
    have hd : d ∈ l := h₀.mem hlv
    have ho := hw d hd ((hcn d hd).mp hlt)
    refine ⟨fun i hi => ⟨?_, fun hu => ⟨d, rfl, ?_⟩⟩, fun _ hd' => ?_⟩
    · rintro ⟨_, ⟨⟩, hle⟩
      exact ⟨⟨c, rfl, by omega⟩, fun heq => by subst heq; omega⟩
    · have hle := hl i (h₀.live hi) ((hcn i hi).mpr hu)
      rwa [hw i hi hu, ho] at hle
    · cases hd'
      exact ⟨hd, by omega⟩

/-- A round moves the block of the cursor. -/
theorem step {touched' : ℕ → Bool} (ht : ∀ x, tgt + s₀.book.size c ≤ x → touched' x = touched x) :
    Packing s₀ l (update offset c tgt) (tgt + s₀.book.size c)
      (findNextCompactionBlock { s₀.book with offset := update offset c tgt } (offset c))
      (overwrite heap tgt (s₀.book.size c) fun k => heap (offset c + k)) touched' := by
  obtain ⟨hc, hr⟩ := h.room c rfl
  have hs : offset c = s₀.book.offset c := h.waits c hc ⟨c, rfl, le_rfl⟩
  obtain ⟨hun, hf⟩ := h.undone_next h₀ rfl
  have hus := h₀.used_le c hc
  rw [blockEnd] at hus
  -- the others are before the target, or behind the block
  have ho : ∀ i ∈ l, i ≠ c → offset i + s₀.book.size i ≤ tgt ∧ ¬Undone s₀ (some c) i ∨
      s₀.book.offset c + s₀.book.size c ≤ offset i ∧ Undone s₀ (some c) i := fun i hi hic => by
    by_cases hu : Undone s₀ (some c) i
    · have hw := h.waits i hi hu
      obtain ⟨_, ⟨⟩, hle⟩ := id hu
      exact inr ⟨hw ▸ behind h₀ hc hi hic hle, hu⟩
    · exact inl ⟨h.packed i hi hu, hu⟩
  refine ⟨?_, fun i hi hnot => ?_, fun i hi hu => ?_, fun d hd => ?_, fun x hx => ?_, fun i hi k hk => ?_, fun x hx => ?_⟩
  · have hn := h.spread.replace (i := c) (o := tgt) (n := s₀.book.size c) (h₀.size_pos hc) (by omega) fun i hi hic => by
      rcases ho i hi hic with hi | hi <;> omega
    rw [update_eq_self] at hn
    exact hn.subset fun i hi => mem_cons_of_mem c hi
  · by_cases hic : i = c
    · rw [hic, update_self]
    · rw [update_of_ne hic]
      exact (h.packed i hi fun hu => hnot ((hun i hi).mpr ⟨hu, hic⟩)).trans (le_add_right _ _)
  · obtain ⟨hu, hic⟩ := (hun i hi).mp hu
    rw [update_of_ne hic, h.waits i hi hu]
  · obtain ⟨hdl, hlt⟩ := hf d hd
    have hb := behind h₀ hc hdl (fun heq => by subst heq; omega) hlt.le
    exact ⟨hdl, by omega⟩
  · by_cases hxt : x < tgt
    · obtain ⟨i, hi, hin⟩ := h.covered x hxt
      have hic : i ≠ c := fun heq => by subst heq; omega
      refine ⟨i, hi, ?_⟩
      rwa [update_of_ne hic]
    · refine ⟨c, hc, ?_⟩
      rw [update_self]
      omega
  · by_cases hic : i = c
    · subst hic
      rw [update_self, overwrite_add hk]
      exact h.cells i hi k hk
    · rw [update_of_ne hic, overwrite_of_not_mem (by rcases ho i hi hic with hi | hi <;> omega)]
      exact h.cells i hi k hk
  · rw [overwrite_of_not_mem (by omega), ht x (by omega)]
    exact h.beyond x hx

/-- The cursor goes ahead. -/
theorem left_lt :
    left s₀ (findNextCompactionBlock { s₀.book with offset := update offset c tgt } (offset c)) <
      left s₀ (some c) := by
  have hc := h₀.offset_lt_used (h.room c rfl).1
  cases hnx : findNextCompactionBlock { s₀.book with offset := update offset c tgt } (offset c) with
  | none => exact Nat.sub_pos_of_lt hc
  | some d =>
    obtain ⟨hd, hlt⟩ := (h.undone_next h₀ rfl).2 d hnx
    have := h₀.offset_lt_used hd
    simp only [left]
    omega

end

/-- The loop stops in the middle or at the end; the cursor has gone ahead if there was a block to move. -/
theorem loop (h₀ : s₀.book.Sound l f) (budget : ℕ) {n : ℕ} (moved : ℕ) (h : Packing s₀ l offset tgt cursor heap touched)
    (hn : left s₀ cursor < n) : ∃ off' tgt' cur' he' touched',
      compactLoop budget n moved (midway s₀ offset tgt cursor heap touched) =
        (midway s₀ off' tgt' cur' he' touched', true) ∧
      Packing s₀ l off' tgt' cur' he' touched' ∧ left s₀ cur' ≤ left s₀ cursor ∧
      (moved = 0 → cursor ≠ none → left s₀ cur' < left s₀ cursor) := by
  induction n generalizing offset tgt cursor heap touched moved with
  | zero => exact absurd hn (not_lt_zero _)
  | succ n ih =>
    cases cursor with
    | none => exact ⟨_, _, _, _, _, rfl, h, le_rfl, fun _ hne => absurd rfl hne⟩
    | some c =>
      have hc := (h.room c rfl).1
      have hlt : c < s₀.book.blockCount := (h₀.live hc).1
      have hl : compactLoop budget (n + 1) moved (midway s₀ offset tgt (some c) heap touched) =
          if moved < budget ∨ moved = 0 then compactLoop budget n (moved + s₀.book.size c)
            ((midway s₀ offset tgt (some c) heap touched).compactStep c)
          else (midway s₀ offset tgt (some c) heap touched, true) := by
        rw [← dropFree_size h₀ hc]
        show (if moved < budget ∨ moved = 0 then if s₀.book.blockCount ≤ c then _ else _ else _) = _
        rw [if_neg (not_le.mpr hlt)]
        rfl
      rw [hl]
      by_cases hgo : moved < budget ∨ moved = 0
      · obtain ⟨t1, hs, ht⟩ := compactStep_midway offset tgt (some c) heap touched h₀ hc
        have hlf := h.left_lt h₀
        rw [if_pos hgo, hs]
        obtain ⟨off', tgt', cur', he', touched', hr, hp, hle, _⟩ := ih (moved + s₀.book.size c) (h.step h₀ ht) (by omega)
        exact ⟨off', tgt', cur', he', touched', hr, hp, by omega, fun _ _ => by omega⟩
      · rw [if_neg hgo]
        exact ⟨_, _, _, _, _, rfl, h, le_rfl, fun hz => absurd (inr hz) hgo⟩

end Packing

/-! ## A whole compaction -/

/-- A compaction that began as `s₀` has come to its end. -/
structure Finished (s₀ : Scma) (l : List ℕ) (s : Scma) : Prop where
  good : s.Good l []
  keeps : Keeps (fun _ => True) s₀ s
  needed : s.book.compactionNeeded = false
  used : s.book.usedSize ≤ s₀.book.usedSize
  packed : s.book.usedSize ≤ s₀.book.liveSize
  capacity : s.book.heapCapacity = s₀.book.heapCapacity
  count : s.book.blockCount = s₀.book.blockCount

/-- A compaction starts with nothing packed. -/
theorem Good.begin (h : s.Good l f) : Packing s l s.book.offset 0 s.book.dropFreeSpans.findFirstCompactionBlock s.heap s.touched := by
  have hs := h.sound
  have hf : (s.book.dropFreeSpans.findFirstCompactionBlock = none ∧ l = []) ∨
      ∃ c, s.book.dropFreeSpans.findFirstCompactionBlock = some c ∧ c ∈ l ∧ ∀ i ∈ l, s.book.offset c ≤ s.book.offset i := by
    rcases select_spec s.book.dropFreeSpans (fun _ => true) with ⟨hno, hr⟩ | ⟨c, hsm, hlv, _, hl⟩
    · refine inl ⟨hno, eq_nil_iff_forall_not_mem.mpr fun i hi => ?_⟩
      have hm : sizeMax ≤ s.book.offset i := hr i (hs.live hi) rfl
      exact absurd hm (not_le.mpr (hs.offset_lt hi))
    · exact inr ⟨c, hsm, hs.mem hlv, fun i hi => hl i (hs.live hi) rfl⟩
  -- at the beginning all blocks wait
  have ha : ∀ i ∈ l, Undone s s.book.dropFreeSpans.findFirstCompactionBlock i := fun i hi => by
    rcases hf with ⟨_, hn⟩ | ⟨c, hsm, _, hl⟩
    · exact absurd (hn ▸ hi) not_mem_nil
    · exact ⟨c, hsm, hl i hi⟩
  refine ⟨hs.spread_live, fun i hi ht => absurd (ha i hi) ht, fun _ _ _ => rfl, fun c hc => ⟨?_, zero_le _⟩,
    fun x hx => absurd hx (not_lt_zero x), fun _ _ _ _ => rfl, fun _ _ => ⟨rfl, rfl⟩⟩
  rcases hf with ⟨hno, _⟩ | ⟨d, hsm, hd, _⟩
  · rw [hno] at hc
    cases hc
  · rw [hsm] at hc
    cases hc
    exact hd

/-- What the end of a compaction makes of the heap. -/
theorem compactEnd_midway (s₀ : Scma) (offset : ℕ → ℕ) (tgt : ℕ) (heap : ℕ → Cell) (touched : ℕ → Bool) :
    (midway s₀ offset tgt none heap touched).compactEnd s₀.book.usedSize =
      ⟨{ Book.dropFreeSpans { s₀.book.dropFreeSpans with offset := offset, usedSize := tgt } with
          compactionNeeded := false, compactionCursor := none, compactionTarget := 0 },
        overwrite heap tgt (s₀.book.usedSize - tgt) fun _ => ⟨0, false⟩,
        overwrite touched tgt (s₀.book.usedSize - tgt) fun _ => true⟩ := by
  unfold compactEnd midway
  by_cases hlt : tgt < s₀.book.usedSize
  · simp only [hlt, if_true]
    rfl
  · simp only [hlt, if_false, Nat.sub_eq_zero_of_le (Nat.not_lt.mp hlt), overwrite_zero]
    rfl

/-- When no block waits any more, the rest of the used part is wiped. -/
theorem Packing.finish (h₀ : s₀.Good l f) (h : Packing s₀ l offset tgt none heap touched) :
    Finished s₀ l ((midway s₀ offset tgt none heap touched).compactEnd s₀.book.usedSize) := by
  rw [compactEnd_midway]
  set b : Book := { s₀.book.dropFreeSpans with offset := offset, usedSize := tgt }
  have hs := h₀.sound
  have hu := hs.used_le_capacity
  have hsz : ∀ i ∈ l, b.dropFreeSpans.size i = s₀.book.size i := fun i hi =>
    ((thins_drop b f).size_eq (inl (hs.live hi).2)).trans (dropFree_size hs hi)
  have hp : ∀ i ∈ l, offset i + s₀.book.size i ≤ tgt := fun i hi => h.packed i hi (by rintro ⟨_, ⟨⟩, _⟩)
  have he : ∀ i ∈ l, offset i + b.dropFreeSpans.size i = offset i + s₀.book.size i := fun i hi =>
    congrArg (offset i + ·) (hsz i hi)
  have ht : tgt ≤ s₀.book.usedSize := by
    by_contra hlt
    obtain ⟨i, hi, hin⟩ := h.covered (tgt - 1) (by omega)
    have := h.spread.le i hi
    omega
  have hpl : Placed { b.dropFreeSpans with
      compactionNeeded := false, compactionCursor := none, compactionTarget := 0 } l [] := by
    refine { hs with
      free := ⟨rfl, nodup_nil⟩, idle := fun i hi => absurd hi not_mem_nil, spread := ?_, cursor := rfl }
    rw [append_nil]
    exact (h.spread.mono hu).congr fun i hi => ⟨rfl, hsz i hi⟩
  refine ⟨⟨⟨hpl, fun i hi => (he i hi).le.trans (hp i hi), ?_, ?_⟩, ⟨fun x hx => ?_, fun x hx => ?_⟩⟩,
    ⟨le_rfl, fun _ _ => Iff.rfl, fun _ _ _ => rfl, fun i _ hi => hsz i (hs.mem hi), fun i _ hi k hk => ?_⟩,
    rfl, ht, hs.liveSize ▸ le_sum_of_covered h.covered hs.list.2.2, rfl, rfl⟩
  · rcases Nat.eq_zero_or_pos tgt with hz | hpos
    · exact inl hz
    · obtain ⟨i, hi, hin⟩ := h.covered (tgt - 1) (by omega)
      have := hp i hi
      exact inr ⟨i, hi, (he i hi).trans (show offset i + s₀.book.size i = tgt by omega)⟩
  · rw [map_congr_left hsz]
    exact hs.liveSize
  · have hn : ∀ i ∈ l, ¬(offset i ≤ x ∧ x < offset i + s₀.book.size i) := fun i hi hin =>
      hx i hi ⟨hin.1, by rw [blockEnd]; exact hin.2.trans_eq (he i hi).symm⟩
    have hge : tgt ≤ x := not_lt.mp fun hlt => by
      obtain ⟨i, hi, hin⟩ := h.covered x hlt
      exact hn i hi hin
    by_cases hlt : x < s₀.book.usedSize
    · simp only [overwrite_of_mem (show tgt ≤ x ∧ x < tgt + (s₀.book.usedSize - tgt) by omega)]
      exact ⟨trivial, fun _ => trivial⟩
    · simp only [overwrite_of_not_mem (show x < tgt ∨ tgt + (s₀.book.usedSize - tgt) ≤ x by omega)]
      rw [(h.beyond x (not_lt.mp hlt)).1, (h.beyond x (not_lt.mp hlt)).2]
      refine h₀.clean.outside x fun i hi hin => ?_
      have := hs.used_le i hi
      exact hlt (hin.2.trans_le this)
  · by_cases hlt : x < s₀.book.usedSize
    · exact hlt.trans_le hu
    · simp only [overwrite_of_not_mem (show x < tgt ∨ tgt + (s₀.book.usedSize - tgt) ≤ x by omega)] at hx
      rw [(h.beyond x (not_lt.mp hlt)).2] at hx
      exact h₀.clean.touched x hx
  · have hi := hs.mem hi
    have := hp i hi
    have hkp := overwrite_of_not_mem (f := heap) (g := fun _ => ⟨0, false⟩)
      (show offset i + k < tgt ∨ tgt + (s₀.book.usedSize - tgt) ≤ offset i + k by omega)
    exact hkp.trans (h.cells i hi k hk)

/-- In the middle of a compaction that began as `s₀`, with less than so much to go. -/
def Midway (s₀ : Scma) (l : List ℕ) (n : ℕ) (s : Scma) : Prop := ∃ offset tgt c heap touched,
  s = midway s₀ offset tgt (some c) heap touched ∧ Packing s₀ l offset tgt (some c) heap touched ∧ left s₀ (some c) < n

theorem Midway.mono {m : ℕ} (h : Midway s₀ l n s) (hle : n ≤ m) : Midway s₀ l m s := by
  obtain ⟨offset, tgt, c, heap, touched, heq, hp, hlt⟩ := h
  exact ⟨offset, tgt, c, heap, touched, heq, hp, hlt.trans_le hle⟩

/-- The loop, and the end if it has come so far. -/
theorem Packing.turn (h₀ : s₀.Good l f) (h : Packing s₀ l offset tgt cursor heap touched) {r : Scma × Bool}
    (hr : r = compactLoop 65536 (s₀.book.usedSize + 1) 0 (midway s₀ offset tgt cursor heap touched)) :
    ∃ s', (if r.2 = true ∧ r.1.book.compactionCursor = none then (r.1.compactEnd s₀.book.usedSize, true) else r) = (s', true) ∧
      (Finished s₀ l s' ∨ Midway s₀ l (left s₀ cursor) s') := by
  obtain ⟨o', tr', c', he', t', hn, hp, hle, hlt⟩ := h.loop h₀.sound 65536 0 (lt_succ_of_le (left_le s₀ cursor))
  rw [hr, hn]
  cases c' with
  | none => exact ⟨_, if_pos ⟨rfl, rfl⟩, inl (hp.finish h₀)⟩
  | some d =>
    refine ⟨_, if_neg (by rintro ⟨_, ⟨⟩⟩), inr ⟨o', tr', d, he', t', rfl, hp, hlt rfl ?_⟩⟩
    rintro rfl
    have hd := h₀.sound.offset_lt_used (hp.room d rfl).1
    simp only [left] at hle
    omega

/-- A round finishes the compaction or leaves less to do. -/
theorem Midway.incremental (h₀ : s₀.Good l f) (h : Midway s₀ l (n + 1) s) :
    ∃ s', s.compactIncremental 65536 = (s', true) ∧ (Finished s₀ l s' ∨ Midway s₀ l n s') := by
  obtain ⟨offset, tgt, c, heap, touched, rfl, hp, hlt⟩ := h
  have hc := (h₀.sound.live (hp.room c rfl).1).1
  obtain ⟨s', ht, he⟩ := hp.turn h₀ rfl
  refine ⟨s', ?_, he.imp_right fun hm => hm.mono (le_of_lt_succ hlt)⟩
  rw [compactIncremental, if_neg (by exact (zero_lt_of_lt hc).ne')]
  exact ht

/-- The first round finishes the compaction or leaves it midway. -/
theorem Good.incremental (h : s.Good l f) :
    ∃ s', s.compactIncremental 65536 = (s', true) ∧ (Finished s l s' ∨ Midway s l s.book.usedSize s') := by
  by_cases hcnt : s.book.blockCount = 0
  · have hs := h.sound
    obtain rfl := hs.eq_nil hcnt
    have hfst : s.book.liveList.first = none := hs.list.1
    have hl : s.book.liveList.last = none := hs.list.2.1
    have hsz : s.book.liveSize = 0 := hs.liveSize
    have hf : f = [] := eq_nil_iff_forall_not_mem.mpr fun i hi => by
      have := (hs.idle i hi).1
      omega
    subst hf
    refine ⟨_, by rw [compactIncremental, if_pos hcnt, if_neg (by simp [hfst, hl, hsz])], inl ?_⟩
    refine ⟨⟨⟨{ hs with cursor := rfl }, fun i hi => absurd hi not_mem_nil, inl rfl, hs.liveSize⟩, { h.clean with }⟩,
      ⟨le_rfl, fun _ _ => Iff.rfl, fun _ _ _ => rfl, fun _ _ _ => rfl, fun _ _ _ _ _ => rfl⟩, rfl, zero_le _, zero_le _, rfl, rfl⟩
  · obtain ⟨s', ht, he⟩ := h.begin.turn h rfl
    refine ⟨s', ?_, he.imp_right fun hm => hm.mono (left_le s _)⟩
    rw [compactIncremental, if_neg hcnt, h.sound.cursor, if_pos rfl]
    exact ht

theorem Finished.rounds (h : Finished s₀ l s) (n : ℕ) : compactRounds (n + 1) s = (s, true) := by
  rw [compactRounds, if_neg (by rw [h.needed]; exact Bool.false_ne_true)]

theorem compactRounds_succ (hnd : s.book.compactionNeeded = true) (h : s.compactIncremental 65536 = (s', true)) :
    compactRounds (n + 1) s = compactRounds n s' := by
  rw [compactRounds, if_pos hnd, h, if_neg Bool.false_ne_true.symm]

/-- Enough rounds finish a compaction that is midway. -/
theorem Midway.rounds (h₀ : s₀.Good l f) (hnd : s₀.book.compactionNeeded = true) (h : Midway s₀ l n s) :
    ∃ s', compactRounds (n + 1) s = (s', true) ∧ Finished s₀ l s' := by
  induction n generalizing s with
  | zero =>
    obtain ⟨_, _, _, _, _, _, _, hlt⟩ := h
    exact absurd hlt (not_lt_zero _)
  | succ n ih =>
    have hs : s.book.compactionNeeded = true := by
      obtain ⟨_, _, _, _, _, rfl, _⟩ := h
      exact hnd
    obtain ⟨s', hr, he⟩ := h.incremental h₀
    rw [compactRounds_succ hs hr]
    rcases he with hf | hmid
    · exact ⟨s', hf.rounds n, hf⟩
    · exact ih hmid

/-- Enough rounds finish a compaction. -/
theorem Good.rounds (h : s.Good l f) (hnd : s.book.compactionNeeded = true) :
    ∃ s', compactRounds (s.book.usedSize + 2) s = (s', true) ∧ Finished s l s' := by
  obtain ⟨s', hr, he⟩ := h.incremental
  rw [compactRounds_succ hnd hr]
  rcases he with hf | hmid
  · exact ⟨s', hf.rounds _, hf⟩
  · exact hmid.rounds h hnd

theorem Good.setNeeded (h : s.Good l f) (needed : Bool) : Good { s with book := { s.book with compactionNeeded := needed } } l f :=
  ⟨{ h.sound with }, { h.clean with }⟩

/-- A compaction ends, with the blocks packed and their bytes kept. -/
theorem Good.compact (h : s.Good l f) : ∃ s', s.compact = (s', true) ∧ Finished s l s' := by
  have hs := h.sound
  have hsz : s.book.liveSize ≤ sizeMax := (hs.liveSize_le.trans hs.used_le_capacity).trans hs.capacity
  have hv := validateLiveList_eq hs.list hs.mem_list hs.used_le hs.liveSize hsz
  have hz : s.book.blockCount = 0 → s.book.liveSize = 0 := fun ht => by
    rw [hs.liveSize, hs.eq_nil ht]
    rfl
  obtain ⟨s', hr, hf⟩ := (h.setNeeded true).rounds rfl
  refine ⟨s', ?_, hf.good, ?_, hf.needed, hf.used, hf.packed, hf.capacity, hf.count⟩
  · rw [Scma.compact, if_neg (by rw [hv]; exact fun hc => Bool.false_ne_true hc.2.symm), if_neg fun hc => hc.2 (hz hc.1)]
    exact hr
  · exact { hf.keeps with }

/-- A compaction that was interrupted ends as well. -/
theorem Midway.compact (h₀ : s₀.Good l f) (hnd : s₀.book.compactionNeeded = true) (h : Midway s₀ l s₀.book.usedSize s) :
    ∃ s', s.compact = (s', true) ∧ Finished s₀ l s' := by
  obtain ⟨s', hr, hf⟩ := (h.mono (le_succ _)).rounds h₀ hnd
  refine ⟨s', ?_, hf⟩
  obtain ⟨offset, tgt, c, heap, touched, rfl, hp, _⟩ := h
  have hs := h₀.sound
  have hsz : ∀ i ∈ l, s₀.book.dropFreeSpans.size i = s₀.book.size i := fun i hi => dropFree_size hs hi
  have hle : s₀.book.liveSize ≤ sizeMax := (hs.liveSize_le.trans hs.used_le_capacity).trans hs.capacity
  have hv : (midway s₀ offset tgt (some c) heap touched).book.validateLiveList = true := by
    refine validateLiveList_eq hs.list hs.mem_list (fun i hi => ?_) ?_ hle
    · exact (congrArg (offset i + ·) (hsz i hi)).le.trans (hp.spread.le i hi)
    · exact hs.liveSize.trans (congrArg sum (map_congr_left hsz).symm)
  have ht := zero_lt_of_lt (hs.live (hp.room c rfl).1).1
  have hset : { midway s₀ offset tgt (some c) heap touched with
      book := { (midway s₀ offset tgt (some c) heap touched).book with compactionNeeded := true } } =
      midway s₀ offset tgt (some c) heap touched := by
    rw [← show (midway s₀ offset tgt (some c) heap touched).book.compactionNeeded = true from hnd]
  rw [Scma.compact, if_neg (by rw [hv]; exact fun hc => Bool.false_ne_true hc.2.symm), if_neg (fun hc => ht.ne' hc.1), hset]
  exact hr

end Scma

end Libft.SCMA
