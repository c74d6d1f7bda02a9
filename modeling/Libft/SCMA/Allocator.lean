import Mathlib.Algebra.GroupWithZero.Nat
import Libft.Lib.Links
import Libft.Lib.Ranges

/-!
# The allocator with handles

The `SCMA` module between `scma_initialize` and `scma_shutdown`. A block of the heap has a record, and a handle is the index of the
record with its generation. The bookkeeping (`Book`) is apart from the heap: nothing the allocator does depends on the bytes in it. The
records are kept field by field, as functions of the index; `SIZE_MAX` as an index is `none`. The two lists are linked through the
records: the live list in both directions, the free list forwards. A walk through the free list is cut off after as many steps as there
are records; the list is never longer. The loops of the compaction have a number of rounds at most, and fail when there are none left;
no run gets there.

Heap and table may fail to grow, and what is in memory that has been added comes from outside (`Memory`). A cell of the heap remembers
whether it holds a byte that a caller has written, and the heap remembers the addresses that have been written to at all. Both are for
the statements only. The mutex is left out.
-/

namespace Libft.SCMA

open Function List

/-- `FT_SYSTEM_SIZE_MAX` -/
def sizeMax : ℕ := 18446744073709551615

/-- `sizeof(scma_block)` -/
def blockBytes : ℕ := 56

/-- `scma_handle`: the index of a block and its generation. -/
structure Handle where
  index : ℕ
  generation : ℕ
  deriving DecidableEq, Repr

/-- `scma_invalid_handle` -/
def invalidHandle : Handle := ⟨sizeMax, sizeMax⟩

/-- What the calls report. -/
inductive Error
  | success
  | invalidHandle
  | invalidArgument
  | invalidPointer
  | invalidState
  | outOfRange
  | noMemory
  deriving DecidableEq, Repr

/-- The records of the blocks, the two lists and the counters. -/
structure Book where
  heapCapacity : ℕ
  blockCount : ℕ := 0
  blockCapacity : ℕ := 0
  offset : ℕ → ℕ := fun _ => 0
  size : ℕ → ℕ := fun _ => 0
  inUse : ℕ → Bool := fun _ => false
  generation : ℕ → ℕ := fun _ => 0
  /-- `live_head`, `live_tail`, `prev_index` and `next_index` -/
  liveList : Deque ℕ := {}
  /-- `free_head` and `next_free_index` -/
  freeList : Chain ℕ := {}
  usedSize : ℕ := 0
  liveSize : ℕ := 0
  compactionNeeded : Bool := false
  compactionCursor : Option ℕ := none
  compactionTarget : ℕ := 0

/-- `scma_next_generation` -/
def nextGeneration (generation : ℕ) : ℕ :=
  if (generation + 1) % 2 ^ 64 = sizeMax then 1 else if (generation + 1) % 2 ^ 64 = 0 then 1 else (generation + 1) % 2 ^ 64

/-- The loop of `scma_ensure_capacity` and `scma_ensure_block_capacity`, for a number of rounds at most. -/
def grownCapacity (required : ℕ) : ℕ → ℕ → ℕ
  | 0, capacity => capacity
  | n + 1, capacity =>
    if capacity < required then
      grownCapacity required n (if required / 2 < capacity then required else if sizeMax / 2 < capacity then required else capacity * 2)
    else capacity

namespace Book

variable (b : Book) (i : ℕ)

/-- Where the block ends. -/
def blockEnd : ℕ := b.offset i + b.size i

/-- `scma_validate_handle` -/
def validateHandle (h : Handle) : Bool :=
  h.index ≠ sizeMax && h.generation ≠ sizeMax && h.index < b.blockCount && b.inUse h.index && b.generation h.index == h.generation

/-- The end of the last block. -/
def maximumEnd : ℕ :=
  (range b.blockCount).foldl
    (fun m i => if b.inUse i = true ∧ b.size i ≤ sizeMax - b.offset i then max m (b.blockEnd i) else m) 0

/-- `scma_recompute_used_size` -/
def recomputeUsedSize : Book := { b with usedSize := b.maximumEnd }

/-- `scma_reset_compaction` -/
def resetCompaction : Book := { b with compactionCursor := none, compactionTarget := 0 }

/-- `scma_ensure_block_capacity` -/
def ensureBlockCapacity (required : ℕ) (grows : Bool) : Option Book :=
  if required ≤ b.blockCapacity then some b
  else
    let capacity := grownCapacity required required (if b.blockCapacity = 0 then required else b.blockCapacity)
    if sizeMax < capacity ∨ sizeMax / blockBytes < capacity then none
    else if grows = true then some { b with blockCapacity := capacity } else none

/-! ## The live list -/

/-- `scma_link_block_at_tail` -/
def linkBlockAtTail : Book :=
  if b.blockCount ≤ i ∨ b.inUse i = false then b
  else match b.liveList.last with
    | none => { b with liveList := b.liveList.append i }
    | some tail =>
      if b.blockCount ≤ tail ∨ b.inUse tail = false ∨ b.liveList.next tail ≠ none then b
      else { b with liveList := b.liveList.append i }

/-- A neighbour in the live list is a record that is linked back. -/
def linkedBack (back : ℕ → Option ℕ) : Option ℕ → Bool
  | none => true
  | some j => j < b.blockCount && back j == some i

/-- `scma_unlink_block` -/
def unlinkBlock : Book :=
  if b.blockCount ≤ i ∨ b.inUse i = false then b
  else if b.linkedBack i b.liveList.next (b.liveList.prev i) = false ∨ b.linkedBack i b.liveList.prev (b.liveList.next i) = false then b
  else { b with liveList := b.liveList.unlink i }

/-- The walk of `scma_validate_live_list`, with as many records to go: how many there are in the list, and their size. -/
def validateLinks : ℕ → Option ℕ → Option ℕ → ℕ → ℕ → Option (ℕ × ℕ)
  | _, none, previous, visited, linked => if previous = b.liveList.last then some (visited, linked) else none
  | 0, some _, _, _, _ => none
  | n + 1, some i, previous, visited, linked =>
    if b.blockCount ≤ i ∨ b.inUse i = false ∨ b.liveList.prev i ≠ previous then none
    else if b.usedSize < b.offset i ∨ b.usedSize - b.offset i < b.size i then none
    else if sizeMax - b.size i < linked then none
    else validateLinks n (b.liveList.next i) (some i) (visited + 1) (linked + b.size i)

/-- The second loop of `scma_validate_live_list`: how many records are in use, and their size. -/
def countInUse : List ℕ → ℕ → ℕ → Option (ℕ × ℕ)
  | [], count, size => some (count, size)
  | i :: rest, count, size =>
    if b.inUse i = true then if sizeMax - b.size i < size then none else countInUse rest (count + 1) (size + b.size i)
    else countInUse rest count size

/-- `scma_validate_live_list` -/
def validateLiveList : Bool :=
  if b.liveList.first.isNone ≠ b.liveList.last.isNone then false
  else match b.validateLinks b.blockCount b.liveList.first none 0 0, b.countInUse (range b.blockCount) 0 0 with
    | some (visited, linked), some (count, size) => visited = count ∧ linked = size ∧ linked = b.liveSize
    | _, _ => false

/-! ## The free list -/

/-- The records of the free list, as far as they are records. -/
def freeWalk : List ℕ := (follow b.freeList.next b.blockCount b.freeList.first).takeWhile (· < b.blockCount)

/-- `scma_push_free_block` -/
def pushFreeBlock : Book := if b.blockCount ≤ i then b else { b with freeList := b.freeList.push i }

/-- `scma_remove_free_block` -/
def removeFreeBlock : Book := { b with freeList := b.freeList.removeFrom i none b.freeWalk }

/-- `scma_discard_free_block` -/
def discardFreeBlock : Book :=
  if b.blockCount ≤ i then b
  else { b with
    freeList := ⟨(b.removeFreeBlock i).freeList.first, update (b.removeFreeBlock i).freeList.next i none⟩
    size := update b.size i 0 }

/-- `scma_discard_free_spans_from` -/
def discardFreeSpansFrom (offset : ℕ) : Book :=
  b.freeWalk.foldl (fun b i =>
    if offset ≤ b.offset i ∨ (0 < b.size i ∧ b.offset i ≤ sizeMax - b.size i ∧ offset < b.blockEnd i) then b.discardFreeBlock i
    else b) b

/-- `scma_free_span_overlaps_live` -/
def freeSpanOverlapsLive : Bool :=
  b.size i == 0 || sizeMax - b.size i < b.offset i || (range b.blockCount).any fun j =>
    b.inUse j && b.size j ≤ sizeMax - b.offset j && b.offset i < b.blockEnd j && b.offset j < b.blockEnd i

/-- `scma_reconcile_free_spans` -/
def reconcileFreeSpans : Book :=
  b.freeWalk.foldl (fun b i => if b.freeSpanOverlapsLive i = true then b.discardFreeBlock i else b) b

/-- The search of `scma_take_free_span`: the first span that is large enough, or that is the end of the used part and can be made large
enough within the heap. -/
def findFreeSpan (size : ℕ) : List ℕ → Except Error (Option (ℕ × Bool))
  | [] => .ok none
  | i :: rest =>
    if b.blockCount ≤ i ∨ b.inUse i = true then .error .invalidState
    else if size ≤ b.size i then .ok (some (i, false))
    else if b.offset i = b.usedSize ∧ b.offset i ≤ b.heapCapacity ∧ size ≤ b.heapCapacity - b.offset i then .ok (some (i, true))
    else findFreeSpan size rest

/-- A new record for what is left of a span. -/
def addRemainder (offset size : ℕ) : Book :=
  pushFreeBlock { b with
    blockCount := b.blockCount + 1
    offset := update b.offset b.blockCount offset
    size := update b.size b.blockCount size
    inUse := update b.inUse b.blockCount false
    generation := update b.generation b.blockCount 1
    liveList := { b.liveList with
      prev := update b.liveList.prev b.blockCount none
      next := update b.liveList.next b.blockCount none }
    freeList := { b.freeList with next := update b.freeList.next b.blockCount none } } b.blockCount

/-- The last part of `scma_take_free_span`: the span is taken out of the list, and made as large as it is to be. -/
def takeSpan (size : ℕ) (expands : Bool) : Book :=
  let taken := b.removeFreeBlock i
  if expands = true then { taken.discardFreeSpansFrom (b.offset i) with
    size := update (taken.discardFreeSpansFrom (b.offset i)).size i size }
  else if size < b.size i then
    let split := taken.addRemainder (b.offset i + size) (b.size i - size)
    { split with size := update split.size i size }
  else taken

/-- `scma_take_free_span` -/
def takeFreeSpan (size : ℕ) (grows : Bool) : Book × Error × Option ℕ :=
  if size = 0 then (b, .invalidArgument, none)
  else
    let b := b.reconcileFreeSpans
    match b.findFreeSpan size (follow b.freeList.next b.blockCount b.freeList.first) with
    | .error e => (b, e, none)
    | .ok none => (b, .success, none)
    | .ok (some (i, expands)) =>
      if expands = false ∧ (b.offset i + size) % 2 ^ 64 < b.offset i then (b, .outOfRange, none)
      else if expands = false ∧ size < b.size i then
        match b.ensureBlockCapacity (b.blockCount + 1) grows with
        | none => (b, .noMemory, none)
        | some b => (b.takeSpan i size expands, .success, some i)
      else (b.takeSpan i size expands, .success, some i)

/-- A span takes in another one next to it. -/
def absorb (c offset : ℕ) : Book :=
  { (removeFreeBlock { b with offset := update b.offset i offset } c) with
    size := update (update b.size i (b.size i + b.size c)) c 0 }

/-- A step of `scma_coalesce_free_block`. -/
def coalesceStep (b : Book) (c : ℕ) : Book :=
  if c ≠ i ∧ b.inUse c = false ∧ 0 < b.size c then
    if sizeMax - b.size i < b.offset i ∨ sizeMax - b.size c < b.offset c then b
    else if b.blockEnd c = b.offset i then if sizeMax - b.size c < b.size i then b else b.absorb i c (b.offset c)
    else if b.blockEnd i = b.offset c then if sizeMax - b.size c < b.size i then b else b.absorb i c (b.offset i)
    else b
  else b

/-- `scma_coalesce_free_block` -/
def coalesceFreeBlock : Book :=
  if b.blockCount ≤ i ∨ b.inUse i = true then b
  else (follow b.freeList.next b.blockCount b.freeList.first).foldl (coalesceStep i) b

/-! ## Records -/

/-- A record that has been free is used for a new block. -/
def claim : Book :=
  { b with
    inUse := update b.inUse i true
    generation := update b.generation i (nextGeneration (b.generation i))
    liveList := { b.liveList with
      prev := update b.liveList.prev i none
      next := update b.liveList.next i none } }

/-- A new record, for a block at the end of the used part. -/
def addBlock (size : ℕ) : Book :=
  { b with
    blockCount := b.blockCount + 1
    offset := update b.offset b.blockCount b.usedSize
    size := update b.size b.blockCount size
    inUse := update b.inUse b.blockCount true
    generation := update b.generation b.blockCount 1
    liveList := { b.liveList with
      prev := update b.liveList.prev b.blockCount none
      next := update b.liveList.next b.blockCount none }
    freeList := { b.freeList with next := update b.freeList.next b.blockCount none } }

/-- The record of a block that has been freed. -/
def release : Book :=
  { b with
    inUse := update b.inUse i false
    generation := update b.generation i (nextGeneration (b.generation i))
    liveSize := b.liveSize - b.size i }

/-- A block at another place, and of another size. -/
def place (offset size : ℕ) : Book :=
  { b with offset := update b.offset i offset, size := update b.size i size }

/-! ## Compaction, but for the bytes -/

/-- The free list is emptied, and no free record has a span. -/
def dropFreeSpans : Book :=
  { b with
    size := fun i => if i < b.blockCount ∧ b.inUse i = false then 0 else b.size i
    freeList := ⟨none, fun i => if i < b.blockCount ∧ b.inUse i = false then none else b.freeList.next i⟩ }

/-- The record in use with the least offset among some. -/
def selectCompactionBlock (p : ℕ → Bool) : Option ℕ :=
  ((range b.blockCount).foldl (fun (best : Option ℕ × ℕ) i =>
    if b.inUse i = true ∧ p (b.offset i) = true ∧ b.offset i < best.2 then (some i, b.offset i) else best) (none, sizeMax)).1

/-- `scma_find_first_compaction_block` -/
def findFirstCompactionBlock : Option ℕ := b.selectCompactionBlock fun _ => true

/-- `scma_find_next_compaction_block` -/
def findNextCompactionBlock (previous : ℕ) : Option ℕ := b.selectCompactionBlock fun offset => previous < offset

end Book

/-! ## The heap -/

/-- A byte of the heap, and whether a caller has written it. -/
structure Cell where
  value : UInt8
  data : Bool
  deriving DecidableEq, Repr

/-- What the system has for a call: bytes in the memory that is added to the heap, if there is any, and room for the table. -/
structure Memory where
  heap : Option (ℕ → UInt8)
  table : Bool

/-- The allocator, and the addresses that have been written to. -/
structure Scma where
  book : Book
  heap : ℕ → Cell
  touched : ℕ → Bool

/-- `scma_initialize`, with what is in the memory that it gets. -/
def initialized (capacity : UInt64) (garbage : ℕ → UInt8) : Scma where
  book := { heapCapacity := if capacity = 0 then 1024 else capacity.toNat }
  heap := fun x => ⟨garbage x, false⟩
  touched := fun _ => false

namespace Scma

variable (s : Scma)

/-- `scma_secure_bzero` -/
def secureBzero (a n : ℕ) : Scma :=
  { s with heap := overwrite s.heap a n fun _ => ⟨0, false⟩, touched := overwrite s.touched a n fun _ => true }

/-- `memmove` within the heap. -/
def moveBytes (target source n : ℕ) : Scma :=
  { s with heap := overwrite s.heap target n fun k => s.heap (source + k), touched := overwrite s.touched target n fun _ => true }

/-- `scma_ensure_capacity` -/
def ensureCapacity (required : ℕ) (m : Memory) : Option Scma :=
  if sizeMax ≤ required then none
  else if required ≤ s.book.heapCapacity then some s
  else
    let capacity := grownCapacity required required (if s.book.heapCapacity = 0 then required else s.book.heapCapacity)
    if sizeMax < capacity then none
    else match m.heap with
      | none => none
      | some garbage => some { s with
        book := { s.book with heapCapacity := capacity }
        heap := fun x => if x < s.book.heapCapacity then s.heap x else ⟨garbage x, false⟩ }

/-! ## Compaction -/

/-- A round of the loop of `scma_compact_incremental`: the block of the cursor is moved to the target. -/
def compactStep (i : ℕ) : Scma :=
  let moved := if s.book.offset i ≠ s.book.compactionTarget then
      { s.moveBytes s.book.compactionTarget (s.book.offset i) (s.book.size i) with
        book := { s.book with offset := update s.book.offset i s.book.compactionTarget } }
    else s
  { moved with
    book := { moved.book with
      compactionTarget := s.book.compactionTarget + s.book.size i
      compactionCursor := moved.book.findNextCompactionBlock (s.book.offset i) } }

/-- The loop of `scma_compact_incremental`, with a number of rounds at most, and whether all was in order. -/
def compactLoop (budget : ℕ) : ℕ → ℕ → Scma → Scma × Bool
  | 0, _, s => (s, false)
  | n + 1, moved, s =>
    match s.book.compactionCursor with
    | none => (s, true)
    | some i =>
      if moved < budget ∨ moved = 0 then
        if s.book.blockCount ≤ i then (s, false) else compactLoop budget n (moved + s.book.size i) (s.compactStep i)
      else (s, true)

/-- The end of `scma_compact_incremental`, when all blocks are in their places. -/
def compactEnd (previous : ℕ) : Scma :=
  let wiped := if s.book.compactionTarget < previous then
      s.secureBzero s.book.compactionTarget (previous - s.book.compactionTarget)
    else s
  { wiped with
    book := { Book.dropFreeSpans { s.book with usedSize := s.book.compactionTarget } with compactionNeeded := false }.resetCompaction }

/-- `scma_compact_incremental` -/
def compactIncremental (budget : ℕ) : Scma × Bool :=
  if s.book.blockCount = 0 then
    if s.book.liveList.first ≠ none ∨ s.book.liveList.last ≠ none ∨ s.book.liveSize ≠ 0 then (s, false)
    else ({ s with book := { s.book with usedSize := 0, compactionNeeded := false }.resetCompaction }, true)
  else
    let begun := if s.book.compactionCursor = none then
        { s with book := { s.book.dropFreeSpans with
          compactionCursor := s.book.dropFreeSpans.findFirstCompactionBlock, compactionTarget := 0 } }
      else s
    let r := compactLoop budget (s.book.usedSize + 1) 0 begun
    if r.2 = true ∧ r.1.book.compactionCursor = none then (r.1.compactEnd s.book.usedSize, true) else r

/-- The loop of `scma_compact`, for a number of rounds at most. -/
def compactRounds : ℕ → Scma → Scma × Bool
  | 0, s => (s, false)
  | n + 1, s =>
    if s.book.compactionNeeded = true then
      if (s.compactIncremental 65536).2 = false then ((s.compactIncremental 65536).1, false)
      else compactRounds n (s.compactIncremental 65536).1
    else (s, true)

/-- `scma_compact` -/
def compact : Scma × Bool :=
  if s.book.blockCount ≠ 0 ∧ s.book.validateLiveList = false then (s, false)
  else if s.book.blockCount = 0 ∧ s.book.liveSize ≠ 0 then (s, false)
  else compactRounds (s.book.usedSize + 2) { s with book := { s.book with compactionNeeded := true } }

/-! ## Allocation -/

/-- The part of `scma_allocate` for a span of the free list. -/
def allocateSpan (i size : ℕ) : Scma × Handle :=
  ({ s with book := { ((s.book.claim i).linkBlockAtTail i).recomputeUsedSize with liveSize := s.book.liveSize + size } },
    ⟨i, nextGeneration (s.book.generation i)⟩)

/-- The first compaction of `scma_allocate`, and what the heap has to hold then. -/
def allocateCompact (size required : ℕ) : Scma × Option ℕ :=
  if s.book.compactionNeeded = true then
    let r := s.compactIncremental 65536
    if r.2 = false then (r.1, none)
    else
      let r' := if r.1.book.compactionNeeded = true then r.1.compact else (r.1, true)
      if r'.2 = false then (r'.1, none)
      else if (r'.1.book.usedSize + size) % 2 ^ 64 < r'.1.book.usedSize then (r'.1, none)
      else (r'.1, some ((r'.1.book.usedSize + size) % 2 ^ 64))
  else (s, some required)

/-- The second one. -/
def allocateCompactAgain (size required : ℕ) : Scma × Option ℕ :=
  if s.book.heapCapacity < required ∧ s.book.compactionNeeded = true then
    let r := s.compact
    if r.2 = false then (r.1, none)
    else if sizeMax - r.1.book.usedSize < size then (r.1, none)
    else (r.1, some (r.1.book.usedSize + size))
  else (s, some required)

/-- The part of `scma_allocate` for a block at the end of the used part. -/
def allocateAtEnd (size required : ℕ) (m : Memory) : Scma × Handle :=
  match s.ensureCapacity required m with
  | none => (s, invalidHandle)
  | some s =>
    match (s.book.discardFreeSpansFrom s.book.usedSize).ensureBlockCapacity (s.book.blockCount + 1) m.table with
    | none => ({ s with book := s.book.discardFreeSpansFrom s.book.usedSize }, invalidHandle)
    | some b =>
      ({ s with book := { (b.addBlock size).linkBlockAtTail b.blockCount with
        usedSize := b.usedSize + size, liveSize := b.liveSize + size } }, ⟨b.blockCount, 1⟩)

/-- `scma_allocate` -/
def allocate (size : ℕ) (m : Memory) : Scma × Handle :=
  if size = 0 ∨ sizeMax < size then (s, invalidHandle)
  else if (s.book.usedSize + size) % 2 ^ 64 < s.book.usedSize then (s, invalidHandle)
  else
    match s.book.takeFreeSpan size m.table with
    | (b, .success, some i) => allocateSpan { s with book := b } i size
    | (b, .success, none) =>
      match allocateCompact { s with book := b } size ((s.book.usedSize + size) % 2 ^ 64) with
      | (s, none) => (s, invalidHandle)
      | (s, some required) =>
        match s.allocateCompactAgain size required with
        | (s, none) => (s, invalidHandle)
        | (s, some required) => s.allocateAtEnd size required m
    | (b, _, _) => ({ s with book := b }, invalidHandle)

/-- `scma_free` -/
def free (h : Handle) : Scma × Error :=
  if s.book.validateHandle h = false then (s, .invalidHandle)
  else
    let i := h.index
    let wiped := s.secureBzero (s.book.offset i) (s.book.size i)
    let b := (((s.book.unlinkBlock i).release i).pushFreeBlock i).coalesceFreeBlock i
    if b.offset i ≤ b.usedSize ∧ b.size i = b.usedSize - b.offset i then ({ wiped with book := b.recomputeUsedSize }, .success)
    else ({ wiped with book := { b.recomputeUsedSize.resetCompaction with compactionNeeded := true } }, .success)

/-! ## Another size -/

/-- The block ends where the used part ends. -/
def isTail (i : ℕ) : Bool := s.book.offset i ≤ s.book.usedSize && s.book.size i == s.book.usedSize - s.book.offset i

/-- `scma_resize` to a smaller size. -/
def shrink (i newSize : ℕ) : Scma :=
  let wiped := s.secureBzero (s.book.offset i + newSize) (s.book.size i - newSize)
  let b := { s.book.place i (s.book.offset i) newSize with liveSize := s.book.liveSize - (s.book.size i - newSize) }
  if s.isTail i = true then { wiped with book := { b with usedSize := s.book.offset i + newSize }.recomputeUsedSize }
  else { wiped with book := { b.resetCompaction with compactionNeeded := true }.recomputeUsedSize }

/-- `scma_resize` of the last block to a larger size. After a compaction, there are no spans to discard. -/
def growTail (i newSize : ℕ) (discards : Bool) (m : Memory) : Scma × Error :=
  if sizeMax - s.book.offset i < newSize then (s, .outOfRange)
  else match s.ensureCapacity (s.book.offset i + newSize) m with
    | none => (s, .noMemory)
    | some s =>
      let b := if discards = true then s.book.discardFreeSpansFrom s.book.usedSize else s.book
      ({ s with book := { (b.place i (b.offset i) newSize).recomputeUsedSize with
        liveSize := b.liveSize + (newSize - s.book.size i) } }, .success)

/-- `scma_resize` to a larger size at the end of the used part. -/
def relocate (i newSize : ℕ) (m : Memory) : Scma × Error :=
  match s.ensureCapacity (s.book.usedSize + newSize) m with
  | none => (s, .noMemory)
  | some s =>
    let b := s.book.discardFreeSpansFrom s.book.usedSize
    let moved := (s.moveBytes s.book.usedSize (s.book.offset i) (s.book.size i)).secureBzero (s.book.offset i) (s.book.size i)
    let placed := (b.unlinkBlock i).place i b.usedSize newSize
    ({ moved with book := { (placed.linkBlockAtTail i).recomputeUsedSize with
      liveSize := b.liveSize + (newSize - s.book.size i), compactionNeeded := true }.resetCompaction }, .success)

/-- `scma_resize` -/
def resize (h : Handle) (newSize : ℕ) (m : Memory) : Scma × Error :=
  if newSize = 0 then (s, .invalidArgument)
  else if s.book.validateHandle h = false then (s, .invalidHandle)
  else
    let i := h.index
    let s := { s with book := s.book.recomputeUsedSize }
    if newSize = s.book.size i then (s, .success)
    else if newSize < s.book.size i then (s.shrink i newSize, .success)
    else if s.isTail i = true then s.growTail i newSize true m
    else if sizeMax - s.book.usedSize < newSize then (s, .outOfRange)
    else if s.book.heapCapacity < s.book.usedSize + newSize ∧ s.book.compactionNeeded = true then
      let r := s.compact
      if r.2 = false then (r.1, .invalidState)
      else if r.1.isTail i = true then r.1.growTail i newSize false m
      else if sizeMax - r.1.book.usedSize < newSize then (r.1, .outOfRange)
      else r.1.relocate i newSize m
    else s.relocate i newSize m

/-! ## Reading and writing -/

/-- The checks of `scma_validate_write_request` and `scma_validate_read_request`. -/
def validateRequest (h : Handle) (pointer : Bool) (offset size : ℕ) : Error :=
  if s.book.validateHandle h = false then .invalidHandle
  else if pointer = false then .invalidPointer
  else if s.book.size h.index < offset ∨ s.book.size h.index - offset < size then .outOfRange
  else .success

/-- `scma_write`; without a source the pointer is null. -/
def write (h : Handle) (offset : ℕ) (source : Option (List UInt8)) : Scma × Error :=
  match s.validateRequest h source.isSome offset (source.getD []).length with
  | .success =>
    let a := s.book.offset h.index + offset
    let n := (source.getD []).length
    ({ s with
      heap := overwrite s.heap a n fun k => ⟨(source.getD []).getD k 0, true⟩
      touched := overwrite s.touched a n fun _ => true }, .success)
  | e => (s, e)

/-- `scma_read`; the bytes for the destination, unless the pointer is null. -/
def read (h : Handle) (offset size : ℕ) (destination : Bool) : Error × List UInt8 :=
  match s.validateRequest h destination offset size with
  | .success => (.success, (range size).map fun k => (s.heap (s.book.offset h.index + offset + k)).value)
  | e => (e, [])

end Scma

/-! ## Sessions -/

/-- The calls of a session, with their arguments. -/
inductive Call
  | allocate (size : ℕ)
  | free (h : Handle)
  | resize (h : Handle) (newSize : ℕ)
  | write (h : Handle) (offset : ℕ) (source : Option (List UInt8))
  | read (h : Handle) (offset size : ℕ) (destination : Bool)
  deriving DecidableEq, Repr

/-- What a call gives back. -/
inductive Result
  | handle (h : Handle)
  | code (e : Error)
  | bytes (e : Error) (bytes : List UInt8)
  deriving DecidableEq, Repr

/-- A call, with the memory that the system has for it. -/
def Scma.call (s : Scma) (c : Call) (m : Memory) : Scma × Result :=
  match c with
  | .allocate size => ((s.allocate size m).1, .handle (s.allocate size m).2)
  | .free h => ((s.free h).1, .code (s.free h).2)
  | .resize h newSize => ((s.resize h newSize m).1, .code (s.resize h newSize m).2)
  | .write h offset source => ((s.write h offset source).1, .code (s.write h offset source).2)
  | .read h offset size destination => (s, .bytes (s.read h offset size destination).1 (s.read h offset size destination).2)

/-- A session, and what its calls give back. -/
def Scma.run (s : Scma) : List (Call × Memory) → Scma × List Result
  | [] => (s, [])
  | (c, m) :: rest => (((s.call c m).1.run rest).1, (s.call c m).2 :: ((s.call c m).1.run rest).2)

/-- The calls of a session, with what they give back. -/
def Scma.history (s : Scma) (calls : List (Call × Memory)) : List (Call × Result) := (calls.map Prod.fst).zip (s.run calls).2

end Libft.SCMA
