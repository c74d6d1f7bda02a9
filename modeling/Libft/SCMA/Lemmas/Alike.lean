import Libft.SCMA.Allocator

/-!
# Two sessions that differ in the bytes that are written

Two allocators are alike if their heaps differ in nothing but the bytes that callers have written. Calls that differ in nothing but the
bytes to write keep them alike: nothing that the allocator does depends on the contents of the heap.
-/

namespace Libft.SCMA

open List Call Or

/-- The same but for a byte that a caller has written. -/
def Cell.Alike (c c' : Cell) : Prop := c.data = c'.data ∧ (c.data = false → c.value = c'.value)

theorem Cell.Alike.refl (c : Cell) : c.Alike c := ⟨rfl, fun _ => rfl⟩

theorem Cell.alike_data (v v' : UInt8) : Cell.Alike ⟨v, true⟩ ⟨v', true⟩ := ⟨rfl, nofun⟩

/-- The call, without the bytes that it writes. -/
def Call.shape : Call → Call
  | .write h offset source => .write h offset (source.map fun bytes => replicate bytes.length 0)
  | c => c

namespace Scma

/-- Two allocators with the same books whose cells differ in written data only. -/
structure Alike (s s' : Scma) : Prop where
  book : s.book = s'.book
  touched : s.touched = s'.touched
  cells : ∀ x, (s.heap x).Alike (s'.heap x)

/-- The same result, from allocators that are alike. -/
def AlikeWith {β : Type} (out out' : Scma × β) : Prop := out.1.Alike out'.1 ∧ out.2 = out'.2

/-- Allocators that are alike take the same branch. -/
theorem AlikeWith.ite {β : Type} {c : Prop} [Decidable c] {a a' b b' : Scma × β} (ha : AlikeWith a a') (hb : AlikeWith b b') :
    AlikeWith (if c then a else b) (if c then a' else b') := by
  split
  · exact ha
  · exact hb

variable {s s' : Scma} {m : Memory}

/-- Copying alike cells over alike cells gives alike cells. -/
theorem overwrite_alike {f f' g g' : ℕ → Cell} (hf : ∀ x, (f x).Alike (f' x)) (hg : ∀ k, (g k).Alike (g' k)) (a n x : ℕ) :
    (overwrite f a n g x).Alike (overwrite f' a n g' x) := by
  unfold overwrite
  split
  · exact hg _
  · exact hf x

namespace Alike

section

variable (h : s.Alike s')

include h

theorem setBook (b : Book) : Alike { s with book := b } { s' with book := b } := ⟨rfl, h.touched, h.cells⟩

/-- Wiping keeps allocators alike. -/
theorem secureBzero (a n : ℕ) : (s.secureBzero a n).Alike (s'.secureBzero a n) where
  book := h.book
  touched := congrArg (fun t => overwrite t a n fun _ => true) h.touched
  cells := overwrite_alike h.cells (fun _ => .refl _) a n

/-- Moving bytes keeps allocators alike. -/
theorem moveBytes (a o n : ℕ) : (s.moveBytes a o n).Alike (s'.moveBytes a o n) where
  book := h.book
  touched := congrArg (fun t => overwrite t a n fun _ => true) h.touched
  cells := overwrite_alike h.cells (fun k => h.cells (o + k)) a n

/-- The heaps of both grow or not at all. -/
theorem ensureCapacity (n : ℕ) (m : Memory) :
    (s.ensureCapacity n m = none ∧ s'.ensureCapacity n m = none) ∨
      ∃ t t', s.ensureCapacity n m = some t ∧ s'.ensureCapacity n m = some t' ∧ t.Alike t' := by
  unfold Scma.ensureCapacity
  rw [← h.book]
  split
  · exact inl ⟨rfl, rfl⟩
  · split
    · exact inr ⟨s, s', rfl, rfl, h⟩
    · simp only
      generalize grownCapacity n n (if s.book.heapCapacity = 0 then n else s.book.heapCapacity) = c
      split
      · exact inl ⟨rfl, rfl⟩
      · cases m.heap with
        | none => exact inl ⟨rfl, rfl⟩
        | some g =>
          refine inr ⟨_, _, rfl, rfl, ⟨rfl, h.touched, fun x => ?_⟩⟩
          simp only
          split
          · exact h.cells x
          · exact .refl _

/-! ## Compaction -/

/-- A step of the compaction moves the same block in both. -/
theorem compactStep (i : ℕ) : (s.compactStep i).Alike (s'.compactStep i) := by
  unfold Scma.compactStep
  rw [← h.book]
  simp only
  split
  · exact ((h.moveBytes _ _ _).setBook _).setBook _
  · exact h.book ▸ h.setBook _

/-- The loop of a round stops at the same block in both. -/
theorem compactLoop (budget n moved : ℕ) : AlikeWith (Scma.compactLoop budget n moved s) (Scma.compactLoop budget n moved s') := by
  induction n generalizing s s' moved with
  | zero => exact ⟨h, rfl⟩
  | succ n ih =>
    unfold Scma.compactLoop
    rw [← h.book]
    split
    · exact ⟨h, rfl⟩
    · split
      · split
        · exact ⟨h, rfl⟩
        · exact ih (h.compactStep _) _
      · exact ⟨h, rfl⟩

theorem compactEnd (prev : ℕ) : (s.compactEnd prev).Alike (s'.compactEnd prev) := by
  unfold Scma.compactEnd
  rw [← h.book]
  simp only
  split
  · exact (h.secureBzero _ _).setBook _
  · exact h.setBook _

/-- A round of the compaction ends alike. -/
theorem compactIncremental (budget : ℕ) : AlikeWith (s.compactIncremental budget) (s'.compactIncremental budget) := by
  unfold Scma.compactIncremental
  rw [← h.book]
  split
  · split
    · exact ⟨h, rfl⟩
    · exact ⟨h.setBook _, rfl⟩
  · have hb : Alike (if s.book.compactionCursor = none then
          { s with book := { s.book.dropFreeSpans with
            compactionCursor := s.book.dropFreeSpans.findFirstCompactionBlock, compactionTarget := 0 } }
        else s)
        (if s.book.compactionCursor = none then
          { s' with book := { s.book.dropFreeSpans with
            compactionCursor := s.book.dropFreeSpans.findFirstCompactionBlock, compactionTarget := 0 } }
        else s') := by
      split
      · exact h.setBook _
      · exact h
    have hl := hb.compactLoop budget (s.book.usedSize + 1) 0
    simp only
    generalize Scma.compactLoop budget (s.book.usedSize + 1) 0 _ = out at hl ⊢
    generalize Scma.compactLoop budget (s.book.usedSize + 1) 0 _ = out' at hl ⊢
    rw [← hl.2, ← hl.1.book]
    split
    · exact ⟨hl.1.compactEnd _, rfl⟩
    · exact hl

/-- The rounds of a compaction end alike. -/
theorem compactRounds {n : ℕ} : AlikeWith (Scma.compactRounds n s) (Scma.compactRounds n s') := by
  induction n generalizing s s' with
  | zero => exact ⟨h, rfl⟩
  | succ n ih =>
    unfold Scma.compactRounds
    obtain ⟨ha, hf⟩ := h.compactIncremental 65536
    rw [← h.book, ← hf]
    split
    · split
      · exact ⟨ha, rfl⟩
      · exact ih ha
    · exact ⟨h, rfl⟩

/-- A compaction ends alike. -/
theorem compact : AlikeWith s.compact s'.compact := by
  unfold Scma.compact
  rw [← h.book]
  exact .ite ⟨h, rfl⟩ (.ite ⟨h, rfl⟩ (compactRounds (h.setBook _)))

/-! ## Allocation -/

/-- The compaction for an allocation ends alike. -/
theorem allocateCompact (n req : ℕ) : AlikeWith (s.allocateCompact n req) (s'.allocateCompact n req) := by
  unfold Scma.allocateCompact
  rw [← h.book]
  split
  · have hf := h.compactIncremental 65536
    simp only
    generalize s.compactIncremental 65536 = out at hf ⊢
    generalize s'.compactIncremental 65536 = out' at hf ⊢
    rw [← hf.2, ← hf.1.book]
    refine .ite ⟨hf.1, rfl⟩ ?_
    have hs : AlikeWith (if out.1.book.compactionNeeded = true then out.1.compact else (out.1, true))
        (if out.1.book.compactionNeeded = true then out'.1.compact else (out'.1, true)) := .ite hf.1.compact ⟨hf.1, rfl⟩
    generalize (if out.1.book.compactionNeeded = true then out.1.compact else (out.1, true)) = end1 at hs ⊢
    generalize (if out.1.book.compactionNeeded = true then out'.1.compact else (out'.1, true)) = end2 at hs ⊢
    rw [← hs.2, ← hs.1.book]
    exact .ite ⟨hs.1, rfl⟩ (.ite ⟨hs.1, rfl⟩ ⟨hs.1, rfl⟩)
  · exact ⟨h, rfl⟩

/-- So does the second attempt. -/
theorem allocateCompactAgain (n req : ℕ) : AlikeWith (s.allocateCompactAgain n req) (s'.allocateCompactAgain n req) := by
  unfold Scma.allocateCompactAgain
  rw [← h.book]
  split
  · have hc := h.compact
    simp only
    generalize s.compact = out at hc ⊢
    generalize s'.compact = out' at hc ⊢
    rw [← hc.2, ← hc.1.book]
    exact .ite ⟨hc.1, rfl⟩ (.ite ⟨hc.1, rfl⟩ ⟨hc.1, rfl⟩)
  · exact ⟨h, rfl⟩

/-- An allocation behind the used part ends alike, in the handle as well. -/
theorem allocateAtEnd (n req : ℕ) (m : Memory) : AlikeWith (s.allocateAtEnd n req m) (s'.allocateAtEnd n req m) := by
  unfold Scma.allocateAtEnd
  rcases h.ensureCapacity req m with ⟨hno, hn'⟩ | ⟨t, t', hs, hs', ha⟩
  · rw [hno, hn']
    exact ⟨h, rfl⟩
  · rw [hs, hs']
    simp only
    rw [← ha.book]
    split
    · exact ⟨ha.setBook _, rfl⟩
    · exact ⟨ha.setBook _, rfl⟩

/-- An allocation gives both the same handle. -/
theorem allocate (n : ℕ) (m : Memory) : AlikeWith (s.allocate n m) (s'.allocate n m) := by
  unfold Scma.allocate
  rw [← h.book]
  split
  · exact ⟨h, rfl⟩
  · split
    · exact ⟨h, rfl⟩
    · split
      · exact ⟨h.setBook _, rfl⟩
      · rename_i b _
        have hf := (h.setBook b).allocateCompact n ((s.book.usedSize + n) % 2 ^ 64)
        generalize Scma.allocateCompact { s with book := b } n ((s.book.usedSize + n) % 2 ^ 64) = out at hf ⊢
        generalize Scma.allocateCompact { s' with book := b } n ((s.book.usedSize + n) % 2 ^ 64) = out' at hf ⊢
        obtain ⟨t, r⟩ := out
        obtain ⟨t', r'⟩ := out'
        obtain ⟨ha, rfl⟩ : t.Alike t' ∧ r = r' := hf
        cases r with
        | none => exact ⟨ha, rfl⟩
        | some rq =>
          have hs := ha.allocateCompactAgain n rq
          simp only
          generalize t.allocateCompactAgain n rq = out at hs ⊢
          generalize t'.allocateCompactAgain n rq = out' at hs ⊢
          obtain ⟨u, r⟩ := out
          obtain ⟨u', r'⟩ := out'
          obtain ⟨ha', rfl⟩ : u.Alike u' ∧ r = r' := hs
          cases r with
          | none => exact ⟨ha', rfl⟩
          | some rq => exact ha'.allocateAtEnd n rq m
      · exact ⟨h.setBook _, rfl⟩

/-! ## The other calls -/

/-- A release ends alike. -/
theorem free (hd : Handle) : AlikeWith (s.free hd) (s'.free hd) := by
  unfold Scma.free
  rw [← h.book]
  split
  · exact ⟨h, rfl⟩
  · simp only
    split
    · exact ⟨(h.secureBzero _ _).setBook _, rfl⟩
    · exact ⟨(h.secureBzero _ _).setBook _, rfl⟩

theorem isTail (i : ℕ) : s'.isTail i = s.isTail i := by
  unfold Scma.isTail
  rw [h.book]

/-- Shrinking a block ends alike. -/
theorem shrink (i n : ℕ) : (s.shrink i n).Alike (s'.shrink i n) := by
  unfold Scma.shrink
  rw [← h.book, h.isTail]
  simp only
  split
  · exact (h.secureBzero _ _).setBook _
  · exact (h.secureBzero _ _).setBook _

/-- Growing the last block in place ends alike. -/
theorem growTail (i n : ℕ) (dis : Bool) (m : Memory) : AlikeWith (s.growTail i n dis m) (s'.growTail i n dis m) := by
  unfold Scma.growTail
  rw [← h.book]
  split
  · exact ⟨h, rfl⟩
  · rcases h.ensureCapacity (s.book.offset i + n) m with ⟨hno, hn'⟩ | ⟨t, t', hs, hs', ha⟩
    · rw [hno, hn']
      exact ⟨h, rfl⟩
    · rw [hs, hs']
      simp only
      rw [← ha.book]
      exact ⟨ha.setBook _, rfl⟩

/-- Moving a block to grow it ends alike. -/
theorem relocate (i n : ℕ) (m : Memory) : AlikeWith (s.relocate i n m) (s'.relocate i n m) := by
  unfold Scma.relocate
  rw [← h.book]
  rcases h.ensureCapacity (s.book.usedSize + n) m with ⟨hno, hn'⟩ | ⟨t, t', hs, hs', ha⟩
  · rw [hno, hn']
    exact ⟨h, rfl⟩
  · rw [hs, hs']
    simp only
    rw [← ha.book]
    exact ⟨((ha.moveBytes _ _ _).secureBzero _ _).setBook _, rfl⟩

/-- A resize ends alike. -/
theorem resize (hd : Handle) (n : ℕ) (m : Memory) : AlikeWith (s.resize hd n m) (s'.resize hd n m) := by
  unfold Scma.resize
  rw [← h.book]
  refine .ite ⟨h, rfl⟩ (.ite ⟨h, rfl⟩ ?_)
  have hs := h.setBook s.book.recomputeUsedSize
  simp only
  rw [hs.isTail]
  refine .ite ⟨hs, rfl⟩ (.ite ⟨hs.shrink _ _, rfl⟩ (.ite (hs.growTail _ _ _ _) (.ite ⟨hs, rfl⟩ ?_)))
  refine .ite ?_ (hs.relocate _ _ _)
  have hc := hs.compact
  generalize Scma.compact { s with book := s.book.recomputeUsedSize } = out at hc ⊢
  generalize Scma.compact { s' with book := s.book.recomputeUsedSize } = out' at hc ⊢
  rw [← hc.2, ← hc.1.book, hc.1.isTail]
  exact .ite ⟨hc.1, rfl⟩ (.ite (hc.1.growTail _ _ _ _) (.ite ⟨hc.1, rfl⟩ (hc.1.relocate _ _ _)))

/-- A request is validated by the books alone. -/
theorem validateRequest (hd : Handle) (ptr : Bool) (o n : ℕ) :
    s'.validateRequest hd ptr o n = s.validateRequest hd ptr o n := by
  unfold Scma.validateRequest
  rw [h.book]

/-- Writing texts of one length ends alike. -/
theorem write (hd : Handle) (o : ℕ) {src src' : Option (List UInt8)}
    (hs : src.map length = src'.map length) : AlikeWith (s.write hd o src) (s'.write hd o src') := by
  have hsm : src'.isSome = src.isSome := by
    cases src <;> cases src' <;> simp_all
  have hl : (src'.getD []).length = (src.getD []).length := by
    cases src <;> cases src' <;> simp_all
  unfold Scma.write
  rw [hsm, hl, h.validateRequest, ← h.book]
  split
  · simp only
    refine ⟨⟨rfl, congrArg (fun t => overwrite t _ _ fun _ => true) h.touched, fun x => ?_⟩, rfl⟩
    exact overwrite_alike h.cells (fun k => Cell.alike_data _ _) _ _ x
  · exact ⟨h, rfl⟩

/-- Calls that differ in written bytes only keep allocators alike. -/
theorem call {c c' : Call} (hs : c.shape = c'.shape) (m : Memory) : (s.call c m).1.Alike (s'.call c' m).1 := by
  cases c <;> cases c' <;> simp only [shape, reduceCtorEq, allocate.injEq, free.injEq, resize.injEq,
    write.injEq, read.injEq] at hs
  case allocate.allocate n _ =>
    subst hs
    exact (h.allocate n m).1
  case free.free hd _ =>
    subst hs
    exact (h.free hd).1
  case resize.resize hd n _ _ =>
    obtain ⟨rfl, rfl⟩ := hs
    exact (h.resize hd n m).1
  case write.write hd o source _ _ source' =>
    obtain ⟨rfl, rfl, heq⟩ := hs
    refine (h.write hd o ?_).1
    have hl := congrArg (Option.map length) heq
    simpa [Option.map_map, Function.comp_def] using hl
  case read.read => exact h

/-- Sessions that differ in written bytes only end alike. -/
theorem run {cs cs' : List (Call × Memory)}
    (hs : cs.map (fun c => (c.1.shape, c.2)) = cs'.map fun c => (c.1.shape, c.2)) : (s.run cs).1.Alike (s'.run cs').1 := by
  induction cs generalizing s s' cs' with
  | nil =>
    obtain rfl := map_eq_nil_iff.mp hs.symm
    exact h
  | cons c cs ih =>
    cases cs' with
    | nil => exact absurd hs (cons_ne_nil _ _)
    | cons c' cs' =>
      obtain ⟨hh, ht⟩ := cons.inj hs
      obtain ⟨hc, hm⟩ := Prod.mk.inj hh
      have hst := h.call hc c.2
      obtain ⟨c', m'⟩ := c'
      obtain rfl : c.2 = m' := hm
      exact ih hst ht

end

end Alike

end Scma

end Libft.SCMA
