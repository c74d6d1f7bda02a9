import Mathlib.Data.Finset.Card
import Mathlib.Data.Fintype.Basic
import Mathlib.Tactic.Common

/-!
# Sections of a voxel chunk

`game_voxel_chunk_section`: a section holds one block everywhere, or a palette of at most 256 blocks and an index into it for every
place. Which of the two it is does not show in what is read. No block leaves a palette before all places hold the same block: a section
that ever had 256 blocks refuses another one, however few of them it still holds. That is right only as long as all of them are in use
(`getBlock_run`).
-/

namespace Libft.Game.Voxel

open Function List

/-- `GAME_VOXEL_SECTION_BLOCKS` -/
abbrev sectionBlocks : ℕ := 4096

inductive Error where
  | success | outOfRange | noMemory | full
  deriving DecidableEq

/-- `find_or_add_palette_index` -/
def findOrAddPaletteIndex (palette : List UInt32) (block : UInt32) : Option (List UInt32 × ℕ) :=
  match palette.findIdx? (· = block) with
  | some k => some (palette, k)
  | none => if palette.length = 256 then none else some (palette ++ [block], palette.length)

/-- The block is in the palette, or there is room for it. -/
def Fits (palette : List UInt32) (block : UInt32) : Prop := block ∈ palette ∨ palette.length < 256

/-- A block that fits is found in a palette that begins with the one there was; one that does not fit is refused. -/
theorem findOrAddPaletteIndex_spec {pal : List UInt32} (hs : pal.length ≤ 256) (hn : pal.Nodup) (blk : UInt32) :
    match findOrAddPaletteIndex pal blk with
    | none => ¬Fits pal blk
    | some (palette', k) =>
      Fits pal blk ∧ pal <+: palette' ∧ palette'.length ≤ 256 ∧ palette'[k]? = some blk ∧ palette'.Nodup := by
  unfold findOrAddPaletteIndex Fits
  cases hk : pal.findIdx? (· = blk) with
  | some k =>
    obtain ⟨hlt, hb, -⟩ := findIdx?_eq_some_iff_getElem.mp hk
    have hb : pal[k] = blk := of_decide_eq_true hb
    exact ⟨.inl (hb ▸ getElem_mem hlt), prefix_rfl, hs, by simp [hlt, hb], hn⟩
  | none =>
    have hb : blk ∉ pal := fun hb => by simpa using findIdx?_eq_none_iff.mp hk blk hb
    by_cases hl : pal.length = 256
    · simp [hl, hb]
    · have hnd : (pal ++ [blk]).Nodup := by
        simp only [nodup_append, hn, nodup_singleton, mem_singleton, forall_eq, true_and]
        exact fun a ha => ne_of_mem_of_not_mem ha hb
      simp [hl, hnd]
      omega

/-- `_palette` and `_indices`. -/
structure Cells where
  palette : List UInt32
  indices : Fin sectionBlocks → ℕ
  small : palette.length ≤ 256
  nodup : palette.Nodup
  inside : ∀ i, indices i < palette.length

namespace Cells

variable (c : Cells)

/-- The block at a place. -/
def block (i : Fin sectionBlocks) : UInt32 := c.palette.get ⟨c.indices i, c.inside i⟩

/-- What `set_block` does with a palette. -/
def write (i : Fin sectionBlocks) (block : UInt32) : Option Cells :=
  match h : findOrAddPaletteIndex c.palette block with
  | none => none
  | some (palette, k) =>
    have hspec := h ▸ findOrAddPaletteIndex_spec c.small c.nodup block
    some {
      palette
      indices := update c.indices i k
      small := hspec.2.2.1
      nodup := hspec.2.2.2.2
      inside := by
        intro j
        by_cases hj : j = i
        · subst hj
          simpa using (List.getElem?_eq_some_iff.mp hspec.2.2.2.1).1
        · rw [update_of_ne hj]
          exact Nat.lt_of_lt_of_le (c.inside j) hspec.2.1.length_le }

end Cells

/-- `game_voxel_chunk_section` -/
structure ChunkSection where
  uniformBlockId : UInt32 := 0
  cells : Option Cells := none

namespace ChunkSection

variable (s : ChunkSection)

/-- `get_block` -/
def getBlock (i : Fin sectionBlocks) : UInt32 :=
  match s.cells with
  | none => s.uniformBlockId
  | some c => c.block i

/-- `collapse_if_uniform` -/
def collapseIfUniform (c : Cells) : ChunkSection :=
  if (range' 1 (sectionBlocks - 1)).all fun i => c.indices (.ofNat _ i) = c.indices 0 then { uniformBlockId := c.block 0 }
  else { s with cells := some c }

/-- `materialize` -/
def materialize (block : UInt32) : Cells where
  palette := s.uniformBlockId :: if block ≠ s.uniformBlockId then [block] else []
  indices _ := 0
  small := by split <;> simp
  nodup := by
    split
    · simp only [nodup_cons, mem_singleton, not_mem_nil, not_false_eq_true, nodup_nil, and_true]
      exact Ne.symm (by assumption)
    · simp
  inside _ := by simp

/-- `set_block` with a palette. -/
def place (c : Cells) (i : Fin sectionBlocks) (block : UInt32) : Error × ChunkSection :=
  match c.write i block with
  | none => (.full, { s with cells := some c })
  | some c => (.success, s.collapseIfUniform c)

/-- `set_block`, and whether there is memory for a palette. -/
def setBlock (memory : Bool) (i : ℕ) (block : UInt32) : Error × ChunkSection :=
  if h : i < sectionBlocks then
    match s.cells with
    | some c => s.place c ⟨i, h⟩ block
    | none =>
      if block = s.uniformBlockId then (.success, s)
      else if memory = false then (.noMemory, s)
      else s.place (s.materialize block) ⟨i, h⟩ block
  else (.outOfRange, s)

/-- When a section takes a block: it has no palette and needs none or gets one, or the block fits in the palette. -/
def Takes (memory : Bool) (block : UInt32) : Prop :=
  match s.cells with
  | none => block = s.uniformBlockId ∨ memory = true
  | some c => Fits c.palette block

end ChunkSection

/-! ## What is read -/

variable {c : Cells} {s : ChunkSection}

/-- A palette takes a block that fits, and what is read changes at its place only. -/
theorem Cells.write_spec (c : Cells) (i : Fin sectionBlocks) (b : UInt32) : c.write i b = none ∧ ¬Fits c.palette b ∨
    ∃ c', c.write i b = some c' ∧ Fits c.palette b ∧ c'.block = update c.block i b := by
  have hs := findOrAddPaletteIndex_spec c.small c.nodup b
  unfold write
  split
  · rename_i hk
    rw [hk] at hs
    exact .inl ⟨rfl, hs⟩
  · rename_i pal k hk
    rw [hk] at hs
    obtain ⟨hf, ⟨t, rfl⟩, -, hb, -⟩ := hs
    refine .inr ⟨_, rfl, hf, funext fun j => ?_⟩
    by_cases hj : j = i
    · subst hj
      simpa [block, List.getElem?_eq_some_iff] using (List.getElem?_eq_some_iff.mp hb).2
    · simp [block, hj, getElem_append_left (c.inside j)]

/-- Dropping a palette does not show in what is read. -/
theorem ChunkSection.getBlock_collapseIfUniform : (s.collapseIfUniform c).getBlock = c.block := by
  unfold collapseIfUniform
  split
  · rename_i hu
    funext i
    have hi : c.indices i = c.indices 0 := by
      by_cases h0 : i = 0
      · rw [h0]
      · have hp := Fin.pos_iff_ne_zero.mpr h0
        simpa using all_eq_true.mp hu i.val (mem_range'_1.mpr ⟨hp, i.isLt⟩)
    simp [getBlock, Cells.block, hi]
  · rfl

theorem ChunkSection.place_spec (h : c.block = s.getBlock) (i : Fin sectionBlocks) (b : UInt32) :
    Fits c.palette b ∧ (s.place c i b).1 = .success ∧ (s.place c i b).2.getBlock = update s.getBlock i b ∨
      ¬Fits c.palette b ∧ s.place c i b = (.full, { s with cells := some c }) := by
  unfold place
  rcases c.write_spec i b with ⟨hw, hf⟩ | ⟨c', hw, hf, hb⟩
  · exact .inr ⟨hf, by rw [hw]⟩
  · rw [hw]
    exact .inl ⟨hf, rfl, by rw [getBlock_collapseIfUniform, hb, h]⟩

/-- A block that is taken is read where it was written, and nothing else changes; one that is refused changes nothing. -/
theorem ChunkSection.setBlock_spec (s : ChunkSection) (memory : Bool) (i : Fin sectionBlocks) (b : UInt32) :
    s.Takes memory b ∧ (s.setBlock memory i b).1 = .success ∧ (s.setBlock memory i b).2.getBlock = update s.getBlock i b ∨
      ¬s.Takes memory b ∧ (s.setBlock memory i b).1 ≠ .success ∧ (s.setBlock memory i b).2 = s := by
  obtain ⟨u, _ | c⟩ := s
  · by_cases hb : b = u
    · exact .inl ⟨.inl hb, by simp [setBlock, hb, getBlock]⟩
    cases memory with
    | false => exact .inr ⟨by simp [Takes, hb], by simp [setBlock, hb]⟩
    | true =>
      rcases place_spec (s := ⟨u, none⟩) (c := materialize ⟨u, none⟩ b) rfl i b with ⟨-, h⟩ | ⟨h, -⟩
      · exact .inl ⟨.inr rfl, by simpa [setBlock, hb] using h⟩
      · simp [materialize, Fits, hb] at h
  · rcases place_spec (s := ⟨u, some c⟩) (c := c) rfl i b with h | ⟨h, he⟩
    · exact .inl (by simpa [setBlock, Takes] using h)
    · exact .inr ⟨h, by simp [setBlock, he]⟩

/-! ## What is refused -/

/-- The blocks of a section, each once. -/
def blockIds (blocks : Fin sectionBlocks → UInt32) : Finset UInt32 := Finset.univ.image blocks

/-- A section has no stale entry that keeps a block out at a place: without a palette, it needs none or there is memory for one; with a
full palette, in which the block is not, every entry is held at another place. -/
def ChunkSection.Unstale (s : ChunkSection) (memory : Bool) (i : Fin sectionBlocks) (block : UInt32) : Prop :=
  match s.cells with
  | none => block = s.uniformBlockId ∨ memory = true
  | some c => c.palette.length = 256 → block ∉ c.palette → ∀ x ∈ c.palette, ∃ j ≠ i, c.block j = x

variable {i : Fin sectionBlocks} {b : UInt32}

theorem Cells.block_mem (c : Cells) (j : Fin sectionBlocks) : c.block j ∈ c.palette := get_mem _ _

/-- All entries of a full palette in use elsewhere, and another block: these are more than 256. -/
theorem Cells.lt_card_blockIds (hl : c.palette.length = 256) (hb : b ∉ c.palette)
    (hu : ∀ x ∈ c.palette, ∃ j ≠ i, c.block j = x) : 256 < (blockIds (update c.block i b)).card := by
  have hsub : insert b c.palette.toFinset ⊆ blockIds (update c.block i b) := by
    intro x hx
    rw [blockIds, Finset.mem_image]
    rcases Finset.mem_insert.mp hx with rfl | hx
    · exact ⟨i, Finset.mem_univ i, update_self ..⟩
    · obtain ⟨j, hj, rfl⟩ := hu x (mem_toFinset.mp hx)
      exact ⟨j, Finset.mem_univ j, update_of_ne hj ..⟩
  have hc : (insert b c.palette.toFinset).card = 257 := by
    rw [Finset.card_insert_of_notMem (by rwa [mem_toFinset]), toFinset_card_of_nodup c.nodup, hl]
  have := Finset.card_le_card hsub
  omega

/-- With an entry that no other place holds, the block takes the place of one of the 256. -/
theorem Cells.card_blockIds_le {x : UInt32} (hx : x ∈ c.palette) (hu : ∀ j ≠ i, c.block j ≠ x) :
    (blockIds (update c.block i b)).card ≤ 256 := by
  have hsub : blockIds (update c.block i b) ⊆ insert b (c.palette.toFinset.erase x) := by
    intro y hy
    obtain ⟨j, -, rfl⟩ := Finset.mem_image.mp hy
    by_cases hj : j = i
    · subst hj
      rw [update_self]
      exact Finset.mem_insert_self ..
    · rw [update_of_ne hj]
      exact Finset.mem_insert_of_mem (Finset.mem_erase.mpr ⟨hu j hj, mem_toFinset.mpr (c.block_mem j)⟩)
  have hp : 0 < c.palette.length := length_pos_of_mem hx
  have hc := Finset.card_insert_le b (c.palette.toFinset.erase x)
  rw [Finset.card_erase_of_mem (mem_toFinset.mpr hx), toFinset_card_of_nodup c.nodup] at hc
  have := Finset.card_le_card hsub
  have := c.small
  omega

/-- A section without a palette holds at most two blocks after a write. -/
theorem card_blockIds_const_le (u : UInt32) : (blockIds (update (fun _ => u) i b)).card ≤ 256 := by
  have hsub : blockIds (update (fun _ => u) i b) ⊆ {u, b} := by
    intro y hy
    obtain ⟨j, -, rfl⟩ := Finset.mem_image.mp hy
    by_cases hj : j = i
    · subst hj
      simp
    · simp [update_of_ne hj]
  exact (Finset.card_le_card hsub).trans (Finset.card_le_two.trans (by decide))

/-- A section takes every block with which it would hold at most 256, exactly if no stale entry keeps one out. -/
theorem ChunkSection.takes_of_card_le_iff (s : ChunkSection) (memory : Bool) (i : Fin sectionBlocks) (b : UInt32) :
    ((blockIds (update s.getBlock i b)).card ≤ 256 → s.Takes memory b) ↔ s.Unstale memory i b := by
  obtain ⟨u, _ | c⟩ := s
  · exact ⟨fun h => h (card_blockIds_const_le u), fun h _ => h⟩
  · constructor
    · intro h hl hb x hx
      by_contra hno
      rcases h (Cells.card_blockIds_le hx fun j hj hjx => hno ⟨j, hj, hjx⟩) with hm | hlt
      · exact hb hm
      · exact absurd hl hlt.ne
    · intro h hc
      by_contra hf
      obtain ⟨hb, hlt⟩ := not_or.mp hf
      have hl : c.palette.length = 256 := le_antisymm c.small (not_lt.mp hlt)
      exact absurd hc (not_le.mpr (Cells.lt_card_blockIds hl hb (h hl hb)))

/-! ## Runs -/

/-- A call of `set_block`, and whether there is memory for a palette in it. -/
structure Call where
  index : ℕ
  block : UInt32
  memory : Bool := true

/-- A call on a section, beside the writes that succeeded. -/
def step (r : ChunkSection × List (Fin sectionBlocks × UInt32)) (c : Call) : ChunkSection × List (Fin sectionBlocks × UInt32) :=
  let (error, s) := r.1.setBlock c.memory c.index c.block
  (s, if h : error = .success ∧ c.index < sectionBlocks then r.2 ++ [(⟨c.index, h.2⟩, c.block)] else r.2)

/-- Calls on a new section. -/
def run (calls : List Call) : ChunkSection × List (Fin sectionBlocks × UInt32) := calls.foldl step ({}, [])

/-- What the writes leave in a section of air. -/
def written (log : List (Fin sectionBlocks × UInt32)) : Fin sectionBlocks → UInt32 :=
  log.foldl (fun blocks w => update blocks w.1 w.2) fun _ => 0

/-- After any calls, what is read at a place is the block of the last call there that succeeded, and air where none did. The next call
succeeds whenever there would be at most 256 blocks in the section after it, exactly if no stale entry of the palette keeps a block
out. -/
theorem getBlock_run (calls : List Call) : (run calls).1.getBlock = written (run calls).2 ∧
    ∀ memory (i : Fin sectionBlocks) b,
      ((blockIds (update (run calls).1.getBlock i b)).card ≤ 256 → ((run calls).1.setBlock memory i b).1 = .success) ↔
        (run calls).1.Unstale memory i b := by
  constructor
  · refine foldlRecOn calls step (b := ({}, [])) (motive := fun r => r.1.getBlock = written r.2) rfl ?_
    rintro ⟨s, log⟩ h c -
    by_cases hi : c.index < sectionBlocks
    · rcases s.setBlock_spec c.memory ⟨c.index, hi⟩ c.block with ⟨-, he, hg⟩ | ⟨-, he, hg⟩
      · simp_all [step, written]
      · simp_all [step]
    · simp [step, ChunkSection.setBlock, hi, h]
  · intro memory i b
    rw [← ChunkSection.takes_of_card_le_iff]
    rcases (run calls).1.setBlock_spec memory i b with ⟨ht, he, -⟩ | ⟨ht, he, -⟩
    · exact ⟨fun _ _ => ht, fun _ _ => he⟩
    · exact ⟨fun h hc => absurd (h hc) he, fun h hc => absurd (h hc) ht⟩

/-- One block after another written at the same place. -/
def others (m : ℕ) : List Call := (range m).map fun k => { index := 0, block := .ofNat (k + 1) }

/-- 255 blocks at one place of a section of air: the next one is refused, although there would only be two blocks in the section. -/
theorem setBlock_full : ((run (others 255)).1.setBlock true 0 256).1 = .full ∧ ∀ i ≠ 0, (run (others 255)).1.getBlock i = 0 := by
  refine ⟨by decide +kernel, fun i hi => ?_⟩
  refine foldlRecOn (others 255) step (b := ({}, [])) (motive := fun r => r.1.getBlock i = 0) rfl fun r h c hc => ?_
  obtain ⟨k, -, rfl⟩ := mem_map.mp hc
  rcases r.1.setBlock_spec true 0 (.ofNat (k + 1)) with ⟨-, -, hg⟩ | ⟨-, -, hg⟩
  · exact (congrFun hg i).trans ((update_of_ne hi ..).trans h)
  · exact (congrArg (·.getBlock i) hg).trans h

end Libft.Game.Voxel
