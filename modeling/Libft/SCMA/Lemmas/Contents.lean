import Libft.SCMA.Lemmas.Blocks

/-!
# The contents of the blocks

The allocator as a map from handles to contents: `Scma.cells` gives the cells of the block of a handle that is accepted. `Effect` says
what a call does to such a map and what it gives back; it knows nothing of a heap.
-/

namespace Libft.SCMA

open List Option Bool Function

/-- The contents of the blocks by their handles. -/
abbrev Contents := Handle → Option (List Cell)

/-- What a call does to the contents, and what it gives back. -/
inductive Effect : Contents → Call → Result → Contents → Prop
  | allocateFails {v n} : Effect v (.allocate n) (.handle invalidHandle) v
  | allocates {v n h cells} (hvalid : h ≠ invalidHandle) (hfresh : v h = none) (hpos : 0 < n) (hlength : cells.length = n)
      (hdata : ∀ c ∈ cells, c.data = false) : Effect v (.allocate n) (.handle h) (update v h (some cells))
  | frees {v h cells} (hlive : v h = some cells) : Effect v (.free h) (.code .success) (update v h none)
  | freeStale {v h} (hstale : v h = none) : Effect v (.free h) (.code .invalidHandle) v
  | resizes {v h n cells fresh} (hpos : n ≠ 0) (hlive : v h = some cells) (hlength : (cells.take n ++ fresh).length = n)
      (hdata : ∀ c ∈ fresh, c.data = false) :
      Effect v (.resize h n) (.code .success) (update v h (some (cells.take n ++ fresh)))
  | resizeFails {v h n cells e} (hlive : v h = some cells) (hgrows : cells.length < n) (he : e = .outOfRange ∨ e = .noMemory) :
      Effect v (.resize h n) (.code e) v
  | resizeZero {v h} : Effect v (.resize h 0) (.code .invalidArgument) v
  | resizeStale {v h n} (hpos : n ≠ 0) (hstale : v h = none) : Effect v (.resize h n) (.code .invalidHandle) v
  | writes {v h o source cells} (hlive : v h = some cells) (hrange : o + source.length ≤ cells.length) :
      Effect v (.write h o (some source)) (.code .success)
        (update v h (some (cells.take o ++ source.map (⟨·, true⟩) ++ cells.drop (o + source.length))))
  | writeNull {v h o cells} (hlive : v h = some cells) : Effect v (.write h o none) (.code .invalidPointer) v
  | writeRange {v h o source cells} (hlive : v h = some cells) (hrange : cells.length < o + source.length) :
      Effect v (.write h o (some source)) (.code .outOfRange) v
  | writeStale {v h o source} (hstale : v h = none) : Effect v (.write h o source) (.code .invalidHandle) v
  | reads {v h o n cells} (hlive : v h = some cells) (hrange : o + n ≤ cells.length) :
      Effect v (.read h o n true) (.bytes .success (((cells.drop o).take n).map Cell.value)) v
  | readNull {v h o n cells} (hlive : v h = some cells) : Effect v (.read h o n false) (.bytes .invalidPointer []) v
  | readRange {v h o n cells} (hlive : v h = some cells) (hrange : cells.length < o + n) :
      Effect v (.read h o n true) (.bytes .outOfRange []) v
  | readStale {v h o n destination} (hstale : v h = none) : Effect v (.read h o n destination) (.bytes .invalidHandle []) v

namespace Scma

/-- The cells of a block. -/
def blockCells (s : Scma) (i : ℕ) : List Cell := (List.range (s.book.size i)).map fun k => s.heap (s.book.offset i + k)

/-- The allocator as a map. -/
def cells (s : Scma) : Contents := fun h => if s.book.validateHandle h = true then some (s.blockCells h.index) else none

variable {s s' : Scma} {l f l' f' : List ℕ} {i n : ℕ} {h : Handle} {m : Memory}

@[simp] theorem length_blockCells (s : Scma) (i : ℕ) : (s.blockCells i).length = s.book.size i := by simp [blockCells]

@[simp] theorem getElem_blockCells (s : Scma) {k : ℕ} (hk : k < (s.blockCells i).length) :
    (s.blockCells i)[k] = s.heap (s.book.offset i + k) := by simp [blockCells]

theorem cells_of_valid (hv : s.book.validateHandle h = true) : s.cells h = some (s.blockCells h.index) := if_pos hv

theorem cells_of_invalid (hv : s.book.validateHandle h = false) : s.cells h = none :=
  if_neg (by rw [hv]; exact false_ne_true)

/-- Cells that were copied are the same. -/
theorem blockCells_eq {k : ℕ} (hs : s'.book.size i = s.book.size k)
    (hc : ∀ j < s.book.size k, s'.heap (s'.book.offset i + j) = s.heap (s.book.offset k + j)) : s'.blockCells i = s.blockCells k := by
  unfold blockCells
  rw [hs]
  exact map_congr_left fun j hj => hc j (mem_range.mp hj)

/-- Records that are kept have the same contents. -/
theorem Keeps.cells_eq {p : ℕ → Prop} (hkp : Keeps p s s') (hb : s.book.Placed l f) (hb' : s'.book.Placed l' f') (hp : p h.index) :
    s'.cells h = s.cells h := by
  have hvl : s'.book.validateHandle h = true ↔ s.book.validateHandle h = true := by
    rw [validateHandle_iff hb, validateHandle_iff hb', hkp.live _ hp]
    exact and_congr_right fun hl => by rw [hkp.generation _ hp hl.1]
  cases hv : s.book.validateHandle h with
  | true =>
    have hl := ((validateHandle_iff hb h).mp hv).1
    rw [cells_of_valid hv, cells_of_valid (hvl.mpr hv)]
    exact congrArg some (blockCells_eq (hkp.size _ hp hl) fun k hk => hkp.cell _ hp hl k hk)
  | false =>
    rw [cells_of_invalid hv, cells_of_invalid (eq_false_iff.mpr fun hv' => false_ne_true (hv.symm.trans (hvl.mp hv')))]

/-- What has changed is the contents of one handle: for no other handle, the record is accepted before or afterwards. -/
theorem cells_update {v : Option (List Cell)} (hk : Keeps (· ≠ h.index) s s') (hb : s.book.Placed l f)
    (hb' : s'.book.Placed l' f') (hbf : s.book.Live h.index → s.book.generation h.index = h.generation)
    (ha : s'.book.Live h.index → s'.book.generation h.index = h.generation) (hv : s'.cells h = v) :
    s'.cells = update s.cells h v := by
  funext h'
  by_cases heq : h' = h
  · rw [heq, update_self, hv]
  · rw [update_of_ne heq]
    by_cases hi : h'.index = h.index
    · have hn : h.generation ≠ h'.generation := fun hg => heq (by cases h; cases h'; simp_all)
      rw [cells_of_invalid, cells_of_invalid] <;> rw [eq_false_iff, ne_eq]
      · rw [validateHandle_iff hb, hi]
        exact fun hl => hn ((hbf hl.1).symm.trans hl.2)
      · rw [validateHandle_iff hb', hi]
        exact fun hl => hn ((ha hl.1).symm.trans hl.2)
    · exact hk.cells_eq hb hb' hi

/-- What keeps the blocks keeps what every handle shows. -/
theorem Keeps.cells_same (hk : Keeps (fun _ => True) s s') (hb : s.book.Placed l f) (hb' : s'.book.Placed l' f') :
    s'.cells = s.cells := funext fun _ => hk.cells_eq hb hb' trivial

/-! ## The calls -/

/-- An allocation adds a handle with fresh cells, or does nothing. -/
theorem Good.effect_allocate (hs : s.Good l f) (n : ℕ) (m : Memory) :
    Effect s.cells (.allocate n) (.handle (s.allocate n m).2) (s.allocate n m).1.cells := by
  obtain ⟨⟨l', f', hs'⟩, ⟨hi, hkp⟩ | ha⟩ := hs.allocate n m
  · rw [hi, hkp.cells_same hs.sound.toPlaced hs'.sound.toPlaced]
    exact .allocateFails
  · have hb' := hs'.sound.toPlaced
    have hv' : (s.allocate n m).1.book.validateHandle (s.allocate n m).2 = true := (validateHandle_iff hb' _).mpr ⟨ha.live, ha.generation⟩
    have hv : s.book.validateHandle (s.allocate n m).2 = false := by
      rw [eq_false_iff, ne_eq, validateHandle_iff hs.sound.toPlaced]
      exact fun hv => ha.fresh hv.1
    rw [cells_update ha.keeps hs.sound.toPlaced hb' (fun hl => absurd hl ha.fresh) (fun _ => ha.generation) (cells_of_valid hv')]
    refine .allocates (fun heq => ?_) (cells_of_invalid hv) ?_ ((length_blockCells _ _).trans ha.size) fun c hc => ?_
    · have := ha.live.1.trans hb'.index_lt
      rw [heq] at this
      exact this.false
    · rw [← ha.size]
      exact hb'.size_pos (hb'.mem ha.live)
    · obtain ⟨k, hk, rfl⟩ := mem_map.mp hc
      rw [mem_range, ha.size] at hk
      exact ha.data k hk

/-- A release takes its handle away. -/
theorem Good.effect_free (hs : s.Good l f) (h : Handle) : Effect s.cells (.free h) (.code (s.free h).2) (s.free h).1.cells := by
  cases hv : s.book.validateHandle h with
  | false =>
    rw [free_invalid hv]
    exact .freeStale (cells_of_invalid hv)
  | true =>
    obtain ⟨⟨l', f', hs'⟩, hc, hf⟩ := hs.free hv
    have hd : (s.free h).1.cells h = none := cells_of_invalid (by
      rw [eq_false_iff, ne_eq, validateHandle_iff hs'.sound.toPlaced]
      exact fun hl => hf.dead hl.1)
    rw [hc, cells_update hf.keeps hs.sound.toPlaced hs'.sound.toPlaced
      (fun _ => ((validateHandle_iff hs.sound.toPlaced h).mp hv).2) (fun hl => absurd hl hf.dead) hd]
    exact .frees (cells_of_valid hv)

/-- A resized block shows its front and fresh cells behind it. -/
theorem Resized.blockCells_eq (hr : Resized s s' i n) : ∃ fresh, s'.blockCells i = (s.blockCells i).take n ++ fresh ∧
    ∀ c ∈ fresh, c.data = false := by
  refine ⟨(s'.blockCells i).drop (s.book.size i), ext_getElem ?_ fun k hk hk' => ?_, fun c hc => ?_⟩
  · simp [hr.size]
    omega
  · simp only [length_blockCells, hr.size] at hk
    by_cases hlt : k < s.book.size i
    · rw [getElem_append_left (by simp; omega), getElem_take, getElem_blockCells, getElem_blockCells]
      exact hr.cell k hlt hk
    · have hl : ((s.blockCells i).take n).length = s.book.size i := by simp; omega
      rw [getElem_append_right (by omega)]
      simp only [getElem_drop, hl, getElem_blockCells]
      congr 2
      omega
  · obtain ⟨k, hk, rfl⟩ := mem_iff_getElem.mp hc
    simp only [length_drop, length_blockCells, hr.size] at hk
    rw [getElem_drop, getElem_blockCells]
    exact hr.data _ (Nat.le_add_right _ _) (by omega)

/-- A resize changes what its handle shows. -/
theorem Good.effect_resize (hs : s.Good l f) (h : Handle) (n : ℕ) (m : Memory) :
    Effect s.cells (.resize h n) (.code (s.resize h n m).2) (s.resize h n m).1.cells := by
  have hb := hs.sound.toPlaced
  by_cases hn : n = 0
  · subst hn
    rw [resize_zero]
    exact .resizeZero
  · cases hv : s.book.validateHandle h with
    | false =>
      rw [resize_invalid hn hv]
      exact .resizeStale hn (cells_of_invalid hv)
    | true =>
      obtain ⟨⟨⟨l', f', hs'⟩, ⟨hcd, hr⟩ | ⟨hcd, hk⟩⟩, hsh⟩ := hs.resize hn hv m
      · have hb' := hs'.sound.toPlaced
        have hl := (validateHandle_iff hb h).mp hv
        have hg := hr.generation.trans hl.2
        obtain ⟨fresh, hc, hd⟩ := hr.blockCells_eq
        rw [hcd, cells_update hr.keeps hb hb' (fun _ => hl.2) (fun _ => hg)
          (cells_of_valid ((validateHandle_iff hb' h).mpr ⟨hr.live, hg⟩)), hc]
        refine .resizes hn (cells_of_valid hv) ?_ hd
        rw [← hc, length_blockCells, hr.size]
      · rw [hk.cells_same hb hs'.sound.toPlaced]
        refine .resizeFails (cells_of_valid hv) ?_ hcd
        rw [length_blockCells]
        by_contra hle
        have hsuc := hsh (Nat.not_lt.mp hle)
        rcases hcd with hcd | hcd <;> rw [hcd] at hsuc <;> cases hsuc

/-- A written block shows the new bytes in the range. -/
theorem Written.blockCells_eq {o : ℕ} {src : List UInt8} (hw : Written s s' i o src) (hrg : o + src.length ≤ s.book.size i) :
    s'.blockCells i = (s.blockCells i).take o ++ src.map (⟨·, true⟩) ++ (s.blockCells i).drop (o + src.length) := by
  have hs : s'.book.size i = s.book.size i := by rw [hw.book]
  refine ext_getElem ?_ fun k hk hk' => ?_
  · simp [hs]
    omega
  · rw [length_blockCells, hs] at hk
    rw [getElem_blockCells, hw.book, hw.cell k hk]
    have ht : ((s.blockCells i).take o).length = o := by simp; omega
    have hm : ((s.blockCells i).take o ++ src.map (⟨·, true⟩ : UInt8 → Cell)).length = o + src.length := by simp; omega
    split
    · rename_i hin
      rw [getElem_append_left (by omega), getElem_append_right (by omega), getElem_map]
      simp only [ht]
      rw [getD_eq_getElem?_getD, getElem?_eq_getElem (by omega), getD_some]
    · rename_i ho
      by_cases hlt : k < o
      · rw [getElem_append_left (by omega), getElem_append_left (by omega), getElem_take, getElem_blockCells]
      · rw [getElem_append_right (by omega), getElem_drop, getElem_blockCells]
        congr 2
        omega

/-- A write changes what its handle shows. -/
theorem Good.effect_write (hs : s.Good l f) (h : Handle) (o : ℕ) (src : Option (List UInt8)) :
    Effect s.cells (.write h o src) (.code (s.write h o src).2) (s.write h o src).1.cells := by
  rcases s.validateRequest_cases h src.isSome o (src.getD []).length with
    ⟨he, hv⟩ | ⟨he, hv, hp⟩ | ⟨he, hv, hp, hrg⟩ | ⟨he, hv, hp, hrg⟩
  · rw [write_error he (by decide)]
    exact .writeStale (cells_of_invalid hv)
  · rw [write_error he (by decide), isSome_eq_false_iff.mp hp |> isNone_iff_eq_none.mp]
    exact .writeNull (cells_of_valid hv)
  · obtain ⟨src, rfl⟩ := isSome_iff_exists.mp hp
    rw [write_error he (by decide)]
    exact .writeRange (cells_of_valid hv) (by simpa using hrg)
  · obtain ⟨src, rfl⟩ := isSome_iff_exists.mp hp
    simp only [getD_some, isSome_some] at he hrg
    obtain ⟨hc, ⟨l', f', hs'⟩, hw⟩ := hs.write he
    have hb := hs.sound.toPlaced
    have hl := (validateHandle_iff hb h).mp hv
    have hv' : (s.write h o (some src)).1.book.validateHandle h = true := by rwa [hw.book]
    rw [hc, cells_update hw.keeps hb hs'.sound.toPlaced (fun _ => hl.2) (fun _ => by rw [hw.book]; exact hl.2)
      (cells_of_valid hv'), hw.blockCells_eq hrg]
    exact .writes (cells_of_valid hv) (by simpa using hrg)

/-- A read gives what its handle shows. -/
theorem effect_read (s : Scma) (h : Handle) (o n : ℕ) (d : Bool) :
    Effect s.cells (.read h o n d) (.bytes (s.read h o n d).1 (s.read h o n d).2) s.cells := by
  unfold Scma.read
  rcases s.validateRequest_cases h d o n with ⟨he, hv⟩ | ⟨he, hv, rfl⟩ | ⟨he, hv, rfl, hrg⟩ | ⟨he, hv, rfl, hrg⟩
  · rw [he]
    exact .readStale (cells_of_invalid hv)
  · rw [he]
    exact .readNull (cells_of_valid hv)
  · rw [he]
    exact .readRange (cells_of_valid hv) (by simpa using hrg)
  · have hbs : (List.range n).map (fun k => (s.heap (s.book.offset h.index + o + k)).value) =
        (((s.blockCells h.index).drop o).take n).map Cell.value := by
      refine ext_getElem (by simp; omega) fun k hk hk' => ?_
      simp [Nat.add_assoc]
    rw [he, hbs]
    exact .reads (cells_of_valid hv) (by simpa using hrg)

/-- Every call does to the contents what it is for. -/
theorem Good.effect (hs : s.Good l f) (c : Call) (m : Memory) : Effect s.cells c (s.call c m).2 (s.call c m).1.cells := by
  cases c with
  | allocate n => exact hs.effect_allocate n m
  | free h => exact hs.effect_free h
  | resize h n => exact hs.effect_resize h n m
  | write h o sr => exact hs.effect_write h o sr
  | read h o n d => exact effect_read s h o n d

end Scma

end Libft.SCMA
