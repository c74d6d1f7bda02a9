import Libft.SCMA.Lemmas.Contents
import Mathlib.Logic.Function.Iterate

/-!
# The allocator is a map from handles to contents

A session of the allocator is a session of the map: every call has its effect on the contents, and a handle that is given out has never
been given out before. The generation of a record goes round after `2 ^ 64 - 2` steps, and both an allocation and a free take a step, so
that a handle comes again when its record has been given out `2 ^ 63` times.
-/

namespace Libft.SCMA

open Function List Scma Nat Book Result Option

/-! ## Sessions of the map -/

/-- The handle that is given out. -/
def Result.handles : Result → List Handle
  | .handle h => if h = invalidHandle then [] else [h]
  | _ => []

/-- A session of the map, with the handles that have been given out before. A handle that is given out is none of them. -/
inductive Session : Contents → List Handle → List (Call × Result) → Contents → Prop
  | nil {v issued} : Session v issued [] v
  | call {v v' v'' issued c r rest} (heffect : Effect v c r v') (hfresh : ∀ h ∈ r.handles, h ∉ issued)
      (hrest : Session v' (r.handles ++ issued) rest v'') : Session v issued ((c, r) :: rest) v''

variable {v v' : Contents} {c : Call} {r : Result} {h : Handle}

/-- What a call does to a handle that is not in use and has been given out before: nothing. -/
theorem Effect.stale (he : Effect v c r v') (hno : v h = none) (hf : h ∉ r.handles) : v' h = none := by
  cases he with
  | @allocates n h' cells hv _ _ _ _ =>
    have hne : h ≠ h' := fun heq => hf (by rw [heq, handles, if_neg hv]; exact mem_singleton_self h')
    rw [update_of_ne hne, hno]
  | @frees h' cells hl =>
    by_cases heq : h = h'
    · rw [heq, update_self]
    · rw [update_of_ne heq, hno]
  | @resizes _ _ _ _ _ hl _ _ | @writes _ _ _ _ hl _ =>
    rw [update_of_ne (fun heq => by rw [← heq, hno] at hl; cases hl), hno]
  | _ => exact hno

/-- A handle that is in use has been given out. -/
theorem Effect.known (he : Effect v c r v') (hs : v' h ≠ none) : v h ≠ none ∨ h ∈ r.handles := by
  by_contra hnot
  rw [not_or, not_not] at hnot
  exact hs (he.stale hnot.1 hnot.2)

variable {hy : List (Call × Result)}

/-- A handle that shows nothing never shows anything again. -/
theorem Session.stale {issued : List Handle} (hs : Session v issued hy v') (his : h ∈ issued) (hno : v h = none) : v' h = none := by
  induction hs with
  | nil => exact hno
  | call he hf _ ih =>
    exact ih (mem_append_right _ his) (he.stale hno fun hm => hf h hm his)

/-- A handle that has been freed is never in use again. -/
theorem Session.freed {issued : List Handle} (hs : Session v issued hy v')
    (hk : ∀ h, v h ≠ none → h ∈ issued) (hf : (Call.free h, code .success) ∈ hy) : v' h = none := by
  induction hs with
  | nil => exact absurd hf not_mem_nil
  | @call v v1 v2 issued c r tl he hfr hr ih =>
    rcases mem_cons.mp hf with heq | hf
    · obtain ⟨rfl, rfl⟩ := Prod.mk.inj heq
      cases he with
      | frees hl =>
        refine hr.stale (mem_append_right _ (hk h ?_)) (update_self ..)
        rw [hl]
        exact some_ne_none _
    · exact ih (fun h' hsm => mem_append.mpr ((he.known hsm).symm.imp_right (hk h'))) hf

/-! ## Generations -/

variable {g : ℕ}

/-- The generations go round. -/
theorem nextGeneration_eq (hp : 0 < g) (hlt : g < sizeMax) : nextGeneration g = g % (sizeMax - 1) + 1 := by
  unfold nextGeneration sizeMax at *
  split
  · omega
  · split <;> omega

/-- Generations go round through the numbers from 1 to the last but one. -/
theorem nextGeneration_iterate (hp : 0 < g) (hlt : g < sizeMax) (d : ℕ) : nextGeneration^[d] g = (g - 1 + d) % (sizeMax - 1) + 1 := by
  induction d with
  | zero => rw [iterate_zero_apply, Nat.add_zero, Nat.mod_eq_of_lt (by omega), Nat.sub_add_cancel hp]
  | succ d ih =>
    have hm : (g - 1 + d) % (sizeMax - 1) < sizeMax - 1 := mod_lt _ (by decide)
    rw [iterate_succ_apply', ih, nextGeneration_eq (by omega) (by omega), mod_add_mod, add_assoc]

/-- A generation comes again after one round, and no earlier. -/
theorem nextGeneration_iterate_ne {d : ℕ} (hp : 0 < g) (hlt : g < sizeMax) (hd : 0 < d) (hr : d < sizeMax - 1) :
    nextGeneration^[d] g ≠ g := by
  rw [nextGeneration_iterate hp hlt]
  intro heq
  have hl' : g - 1 < sizeMax - 1 := by omega
  by_cases hsum : g - 1 + d < sizeMax - 1
  · rw [mod_eq_of_lt hsum] at heq
    omega
  · rw [mod_eq_sub_mod (by omega), mod_eq_of_lt (by omega)] at heq
    omega

/-! ## Handles that have been given out -/

/-- How often a record has been given out. -/
def timesOf (issued : List Handle) (i : ℕ) : ℕ := issued.countP fun h => h.index = i

/-- Every handle that has been given out is as many steps behind its record as there can have been: two for each time that the record has
been given out since, and one more if it is free. -/
def Aged (s : Scma) (issued : List Handle) : Prop := ∀ h ∈ issued, h.index < s.book.blockCount ∧ 0 < h.generation ∧
  h.generation < sizeMax ∧ ∃ d, s.book.generation h.index = nextGeneration^[d] h.generation ∧
    (s.book.Live h.index → d + 2 ≤ 2 * timesOf issued h.index) ∧ d + 1 ≤ 2 * timesOf issued h.index

variable {s s' : Scma} {l f : List ℕ} {issued : List Handle}

/-- A call that takes no step. -/
theorem Aged.keep {i : ℕ} (h : Aged s issued) (hk : s.Keeps (· ≠ i) s') (hlv : s'.book.Live i ↔ s.book.Live i)
    (hg : i < s.book.blockCount → s'.book.generation i = s.book.generation i) : Aged s' issued := by
  intro hd hm
  obtain ⟨hlt, hp, hx, d, hd', hl', hf⟩ := h hd hm
  refine ⟨hlt.trans_le hk.count, hp, hx, d, ?_, fun hl => hl' ?_, hf⟩
  · by_cases hi : hd.index = i
    · rw [hi, hg (hi ▸ hlt), ← hi, hd']
    · rw [hk.generation _ hi hlt, hd']
  · by_cases hi : hd.index = i
    · rw [hi] at hl ⊢
      exact hlv.mp hl
    · exact (hk.live _ hi).mp hl

/-- A release ages the handles of its block. -/
theorem Aged.free {i : ℕ} (h : Aged s issued) (hf : s.Freed s' i) (hi : s.book.Live i) : Aged s' issued := by
  intro hd hm
  obtain ⟨hlt, hp, hx, d, hd', hlv, hfr⟩ := h hd hm
  refine ⟨hlt.trans_le hf.keeps.count, hp, hx, ?_⟩
  by_cases hidx : hd.index = i
  · refine ⟨d + 1, ?_, fun hl => absurd (hidx ▸ hl) hf.dead, hlv (hidx ▸ hi)⟩
    rw [hidx, hf.generation, ← hidx, hd', iterate_succ_apply']
  · exact ⟨d, (hf.keeps.generation _ hidx hlt).trans hd', fun hl => hlv ((hf.keeps.live _ hidx).mp hl), hfr⟩

/-- A handle that is given out is a new one, if its record has not been given out too often. -/
theorem Aged.allocate {hd : Handle} {n : ℕ} (h : Aged s issued) (ha : s.Allocated s' hd n) (hb : ∃ l f, s'.book.Placed l f)
    (ht : timesOf issued hd.index < 2 ^ 63 - 1) : Aged s' (hd :: issued) ∧ hd ∉ issued := by
  obtain ⟨l, f, hb⟩ := hb
  have hs : ∀ h' ∈ issued, h'.index = hd.index → ∃ d, hd.generation = nextGeneration^[d + 1] h'.generation ∧
      d + 1 ≤ 2 * timesOf issued hd.index := fun h' hmem hi => by
    obtain ⟨hlt, _, _, d, hd', _, hf⟩ := h h' hmem
    refine ⟨d, ?_, hi ▸ hf⟩
    rw [ha.next (hi ▸ hlt), ← hi, hd', iterate_succ_apply']
  refine ⟨fun h' hmem => ?_, fun hmem => ?_⟩
  · have hc : timesOf (hd :: issued) h'.index = timesOf issued h'.index + if hd.index = h'.index then 1 else 0 := by
      simp [timesOf, countP_cons]
    rcases mem_cons.mp hmem with rfl | hmem
    · have hg := hb.generation _ ha.live.1
      rw [ha.generation] at hg
      refine ⟨ha.live.1, hg.1, hg.2, 0, ha.generation, ?_⟩
      rw [hc, if_pos rfl]
      omega
    · obtain ⟨hlt, hp, hm, d, hd', hlv, hf⟩ := h h' hmem
      refine ⟨hlt.trans_le ha.keeps.count, hp, hm, ?_⟩
      by_cases hi : h'.index = hd.index
      · obtain ⟨d, hd', hle⟩ := hs h' hmem hi
        refine ⟨d + 1, ?_, ?_⟩
        · rw [hi, ha.generation, hd']
        · rw [hc, if_pos hi.symm, hi]
          omega
      · rw [hc, if_neg (Ne.symm hi), add_zero]
        exact ⟨d, (ha.keeps.generation _ hi hlt).trans hd', fun hl => hlv ((ha.keeps.live _ hi).mp hl), hf⟩
  · obtain ⟨_, hp, hm, _⟩ := h hd hmem
    obtain ⟨d, hd', hle⟩ := hs hd hmem rfl
    refine nextGeneration_iterate_ne hp hm (succ_pos d) ?_ hd'.symm
    unfold sizeMax
    omega

theorem timesOf_append (a b : List Handle) (i : ℕ) : timesOf (a ++ b) i = timesOf a i + timesOf b i := countP_append

/-- A call issues no handle that was issued before, while blocks are reused less often than generations repeat. -/
theorem Aged.call (hs : s.Good l f) (h : Aged s issued) (c : Call) (m : Memory)
    (ht : ∀ i, timesOf ((s.call c m).2.handles ++ issued) i ≤ 2 ^ 63 - 1) :
    Aged (s.call c m).1 ((s.call c m).2.handles ++ issued) ∧ ∀ hd ∈ (s.call c m).2.handles, hd ∉ issued := by
  have hno : ∀ {s'}, Aged s' issued → Aged s' ([] ++ issued) ∧ ∀ hd ∈ ([] : List Handle), hd ∉ issued := fun hs' =>
    ⟨hs', fun _ hm => absurd hm not_mem_nil⟩
  have hall : ∀ {s'}, s.Keeps (fun _ => True) s' → Aged s' issued := fun hk =>
    h.keep (i := 0) (hk.mono fun _ _ => trivial) (hk.live 0 trivial) (hk.generation 0 trivial)
  cases c with
  | allocate n =>
    obtain ⟨⟨l', f', hs'⟩, ⟨hi, hk⟩ | ha⟩ := hs.allocate n m
    · simp only [Scma.call, hi, handles, if_true]
      exact hno (hall hk)
    · have hvl : (s.allocate n m).2 ≠ invalidHandle := fun heq => by
        have hlt := ha.live.1.trans hs'.sound.toPlaced.index_lt
        rw [heq] at hlt
        exact hlt.false
      have hb := ht (s.allocate n m).2.index
      simp only [Scma.call, handles, if_neg hvl] at hb ⊢
      rw [timesOf_append] at hb
      have ho : timesOf [(s.allocate n m).2] (s.allocate n m).2.index = 1 := by simp [timesOf]
      obtain ⟨hag, hf⟩ := h.allocate ha ⟨l', f', hs'.sound.toPlaced⟩ (by omega)
      exact ⟨hag, fun hd hm => mem_singleton.mp hm ▸ hf⟩
  | free hd =>
    cases hv : s.book.validateHandle hd with
    | false =>
      simp only [Scma.call, Scma.free_invalid hv]
      exact hno h
    | true =>
      obtain ⟨_, _, hfr⟩ := hs.free hv
      exact hno (h.free hfr ((validateHandle_iff hs.sound.toPlaced hd).mp hv).1)
  | resize hd n =>
    by_cases hn : n = 0
    · subst hn
      exact hno h
    · cases hv : s.book.validateHandle hd with
      | false =>
        simp only [Scma.call, Scma.resize_invalid hn hv]
        exact hno h
      | true =>
        have hl := ((validateHandle_iff hs.sound.toPlaced hd).mp hv).1
        obtain ⟨⟨_, ⟨_, hr⟩ | ⟨_, hk⟩⟩, _⟩ := hs.resize hn hv m
        · exact hno (h.keep hr.keeps ⟨fun _ => hl, fun _ => hr.live⟩ fun _ => hr.generation)
        · exact hno (hall hk)
  | write hd o sr =>
    by_cases hv : s.validateRequest hd sr.isSome o (sr.getD []).length = .success
    · cases sr with
      | none => exact absurd (validateRequest_eq hv).2.1 Bool.false_ne_true
      | some sr =>
        simp only [getD_some, isSome_some] at hv
        obtain ⟨_, _, hw⟩ := hs.write hv
        have hbk : (s.call (.write hd o (some sr)) m).1.book = s.book := hw.book
        exact hno (h.keep hw.keeps (by rw [hbk]) fun _ => by rw [hbk])
    · simp only [Scma.call, Scma.write_error rfl hv]
      exact hno h
  | read hd o n d => exact hno h

/-- A run refines the map of handles from any good state on. -/
theorem Aged.run (hs : s.Good l f) (h : Aged s issued) {cs : List (Call × Memory)}
    (ht : ∀ i, timesOf ((s.run cs).2.flatMap handles) i + timesOf issued i ≤ 2 ^ 63 - 1) :
    Session s.cells issued (s.history cs) (s.run cs).1.cells := by
  induction cs generalizing s l f issued with
  | nil => exact .nil
  | cons c cs ih =>
    obtain ⟨c, m⟩ := c
    have hsp : ∀ i, timesOf (((s.call c m).1.run cs).2.flatMap handles) i +
        timesOf ((s.call c m).2.handles ++ issued) i ≤ 2 ^ 63 - 1 := fun i => by
      have hle := ht i
      simp only [run, flatMap_cons, timesOf_append] at hle ⊢
      omega
    obtain ⟨ha, hf⟩ := h.call hs c m fun i => (le_add_left _ _).trans (hsp i)
    obtain ⟨l', f', hs'⟩ := hs.call c m
    exact .call (hs.effect c m) hf (ih hs' ha hsp)

/-! ## The allocator -/

/-- What a session of the allocator is: a session of the map, with live blocks that keep apart in the heap, and no handle accepted that
has been freed. -/
structure Refines (s : Scma) (hy : List (Call × Result)) : Prop where
  session : Session (fun _ => none) [] hy s.cells
  apart : ∀ i j, s.book.Live i → s.book.Live j → i ≠ j → Apart s.book.offset s.book.size i j
  inside : ∀ i, s.book.Live i → s.book.blockEnd i ≤ s.book.heapCapacity
  freed : ∀ h, (Call.free h, code .success) ∈ hy → s.book.validateHandle h = false

theorem cells_initialized (cap : UInt64) (garbage : ℕ → UInt8) : (initialized cap garbage).cells = fun _ => none :=
  funext fun h => cells_of_invalid (by
    rw [Bool.eq_false_iff, ne_eq, validateHandle_iff (good_initialized cap garbage).sound.toPlaced]
    exact fun hv => absurd hv.1.1 (not_lt_zero _))

/-- A session is one of a map from handles to bytes: fresh handles are new and blocks disjoint, and a freed handle stays invalid, as long
as no block is handed out so often that its generations repeat. -/
theorem run_refines (capacity : UInt64) (garbage : ℕ → UInt8) (calls : List (Call × Memory))
    (htimes : ∀ i, timesOf (((initialized capacity garbage).run calls).2.flatMap handles) i ≤ 2 ^ 63 - 1) :
    Refines ((initialized capacity garbage).run calls).1 ((initialized capacity garbage).history calls) := by
  have ht := good_initialized capacity garbage
  obtain ⟨l, f, hs⟩ := ht.run calls
  have ha : Aged (initialized capacity garbage) [] := fun h hm => absurd hm not_mem_nil
  have hsn := ha.run ht htimes
  rw [cells_initialized] at hsn
  have hm := hs.sound.mem_list
  refine ⟨hsn, fun i j hi hj hij => hs.sound.spread_live.apart i ((hm i).mpr hi) j ((hm j).mpr hj) hij,
    fun i hi => hs.sound.end_le ((hm i).mpr hi), fun h hf => ?_⟩
  have hno := hsn.freed (fun h hsm => absurd rfl hsm) hf
  rw [Bool.eq_false_iff]
  intro hv
  rw [cells_of_valid hv] at hno
  cases hno

/-- What the system has for the calls of a run: nothing for the heap, but room for the table. -/
def noHeap : Memory := ⟨none, true⟩

/-- The room of a block is used again, and its old handle is tried. -/
def staleRun : List (Call × Memory) :=
  [(.allocate 4, noHeap), (.write ⟨0, 1⟩ 1 (some [7, 8]), noHeap), (.resize ⟨0, 1⟩ 6, noHeap), (.read ⟨0, 1⟩ 1 2 true, noHeap),
    (.free ⟨0, 1⟩, noHeap), (.allocate 4, noHeap), (.read ⟨0, 1⟩ 1 2 true, noHeap)]

/-- A freed handle is refused after its block was handed out again. -/
theorem run_refines_stale : ((initialized 16 fun _ => 0).run staleRun).2 = [.handle ⟨0, 1⟩, .code .success, .code .success,
      .bytes .success [7, 8], .code .success, .handle ⟨0, 3⟩, .bytes .invalidHandle []] ∧
    Refines ((initialized 16 fun _ => 0).run staleRun).1 ((initialized 16 fun _ => 0).history staleRun) :=
  ⟨by decide +kernel, run_refines 16 (fun _ => 0) staleRun fun _ => countP_le_length.trans (by decide +kernel)⟩

/-! ## A handle that comes again -/

/-- The only block is freed and allocated again, a number of times. -/
def reuseCalls : ℕ → ℕ → List (Call × Memory)
  | 0, _ => []
  | n + 1, g => (.free ⟨0, g⟩, noHeap) :: (.allocate 1, noHeap) :: reuseCalls n (nextGeneration (nextGeneration g))

/-- The only block has been freed. -/
theorem reuse_free (hs : s.Good [0] []) (hsz : s.book.size 0 = 1) :
    (s.free ⟨0, s.book.generation 0⟩).2 = .success ∧ (s.free ⟨0, s.book.generation 0⟩).1.Good [] [0] ∧
      (s.free ⟨0, s.book.generation 0⟩).1.book.size 0 = 1 ∧
      (s.free ⟨0, s.book.generation 0⟩).1.book.generation 0 = nextGeneration (s.book.generation 0) := by
  have hsn := hs.sound
  have hl := hsn.live (mem_singleton_self 0)
  have hv : s.book.validateHandle ⟨0, s.book.generation 0⟩ = true := (validateHandle_iff hsn.toPlaced _).mpr ⟨hl, rfl⟩
  obtain ⟨heq, hp⟩ := release_placed hsn (mem_singleton_self 0)
  -- there is no other span to join with
  have hsm : coalesceFreeBlock { release { s.book with liveList := s.book.liveList.unlink 0 } 0 with
      freeList := s.book.freeList.push 0 } 0 =
      { release { s.book with liveList := s.book.liveList.unlink 0 } 0 with freeList := s.book.freeList.push 0 } := by
    rw [coalesceFreeBlock, if_neg (hp.not_live_of_free mem_cons_self), hp.walk_free, foldl_cons, foldl_nil,
      coalesceStep, if_neg fun hc => hc.1 rfl]
  have hm : s.book.liveSize - s.book.size 0 = 0 := by
    rw [hsn.liveSize]
    simp
  have hr : Reclaimed s.book ((((s.book.unlinkBlock 0).release 0).pushFreeBlock 0).coalesceFreeBlock 0) [0] [0] 0 := by
    rw [heq, hsm]
    exact ⟨hp, rfl, rfl, rfl, rfl, hm, fun j hj hj0 => absurd (mem_singleton.mp hj) hj0⟩
  obtain ⟨hg, hcd, hf, hs'⟩ := hs.free_reclaimed hv rfl hr
  refine ⟨hcd, hg, ?_, hf.generation⟩
  rw [hs', heq, hsm]
  exact hsz

/-- The room of the only block is used again. -/
theorem reuse_allocate (hs : s.Good [] [0]) (hsz : s.book.size 0 = 1) :
    (s.allocate 1 noHeap).2 = ⟨0, nextGeneration (s.book.generation 0)⟩ ∧ (s.allocate 1 noHeap).1.Good [0] [] ∧
      (s.allocate 1 noHeap).1.book.size 0 = 1 ∧
      (s.allocate 1 noHeap).1.book.generation 0 = nextGeneration (s.book.generation 0) := by
  have hsn := hs.sound
  have hu : s.book.usedSize = 0 := hsn.used_eq.resolve_right (by rintro ⟨i, hi, _⟩; exact absurd hi not_mem_nil)
  have he := (hsn.free_end_le (mem_singleton_self 0)).trans hsn.capacity
  have hf : s.book.findFreeSpan 1 [0] = .ok (some (0, false)) := by
    rw [findFreeSpan, if_neg (hsn.not_live_of_free (mem_singleton_self 0)), if_pos hsz.ge]
  have htk : s.book.takeFreeSpan 1 true = (s.book.removeFreeBlock 0, .success, some 0) := by
    unfold takeFreeSpan
    rw [if_neg one_ne_zero]
    simp only [hsn.reconcile_eq, hsn.walk_free, hf]
    rw [blockEnd, hsz] at he
    unfold sizeMax at he
    rw [if_neg (by omega), if_neg (by omega), takeSpan, if_neg Bool.false_ne_true, if_neg (by omega)]
  have hal : s.allocate 1 noHeap = allocateSpan { s with book := s.book.removeFreeBlock 0 } 0 1 := by
    unfold allocate
    rw [if_neg (by unfold sizeMax; omega), if_neg (by omega), show noHeap.table = true from rfl, htk]
  have ht := hsn.take_exact (mem_singleton_self 0)
  rw [hsz] at ht
  obtain ⟨hg, ha⟩ := hs.allocateSpan ht
  rw [← hal] at hg ha
  have hh : (s.allocate 1 noHeap).2 = ⟨0, nextGeneration (s.book.generation 0)⟩ := by rw [hal]; rfl
  have hn := ha.generation
  have hs' := ha.size
  rw [hh] at hn hs'
  exact ⟨hh, hg, hs', hn⟩

/-- After so many rounds: the generation has taken twice as many steps. -/
theorem reuse_run (n : ℕ) (hs : s.Good [0] []) (hsz : s.book.size 0 = 1) :
    (s.run (reuseCalls n (s.book.generation 0))).1.Good [0] [] ∧
      (s.run (reuseCalls n (s.book.generation 0))).1.book.generation 0 = nextGeneration^[2 * n] (s.book.generation 0) ∧
      ((s.run (reuseCalls n (s.book.generation 0))).2.flatMap handles).length ≤ n ∧
      (0 < n → (Call.free ⟨0, s.book.generation 0⟩, code .success) ∈ s.history (reuseCalls n (s.book.generation 0))) := by
  induction n generalizing s with
  | zero => exact ⟨hs, rfl, le_rfl, fun h => absurd h (lt_irrefl 0)⟩
  | succ n ih =>
    obtain ⟨hc, hf, hs1, hg1⟩ := reuse_free hs hsz
    obtain ⟨hhn, hg, hs2, hg2⟩ := reuse_allocate hf hs1
    rw [hg1] at hg2
    obtain ⟨hg', hn', hl, _⟩ := ih hg hs2
    rw [hg2] at hg' hn' hl
    refine ⟨hg', hn', ?_, fun _ => ?_⟩
    · have hh : (handles (.handle ((s.free ⟨0, s.book.generation 0⟩).1.allocate 1 noHeap).2)).length ≤ 1 := by
        rw [handles]
        split
        · exact zero_le 1
        · exact le_rfl
      have ha := Nat.add_le_add hh hl
      rw [← length_append, add_comm 1 n] at ha
      exact ha
    · refine mem_cons.mpr (Or.inl ?_)
      rw [← hc]
      rfl

/-- With one record, and that in use, the lists are known. -/
theorem good_single (hs : ∃ l f, s.Good l f) (hc : s.book.blockCount = 1) (hu : s.book.inUse 0 = true) : s.Good [0] [] := by
  obtain ⟨l, f, hs⟩ := hs
  have hsn := hs.sound
  have hl : l = [0] := by
    refine perm_singleton.mp ((perm_ext_iff_of_nodup hsn.list.2.2 (nodup_singleton 0)).mpr fun i => ?_)
    rw [hsn.mem_list, mem_singleton, Book.Live, hc, lt_one_iff]
    exact ⟨fun hi => hi.1, fun hi => ⟨hi, hi ▸ hu⟩⟩
  have hf : f = [] := eq_nil_iff_forall_not_mem.mpr fun i hi => by
    obtain ⟨hlt, hid⟩ := hsn.idle i hi
    rw [hc, lt_one_iff] at hlt
    rw [hlt, hu] at hid
    exact Bool.false_ne_true hid.symm
  rw [← hl, ← hf]
  exact hs

/-- If the generation comes again after a number of rounds, a handle that has been freed is accepted then. -/
theorem accepts_of_round {n : ℕ} (hn : 0 < n) (hr : nextGeneration^[2 * n] 1 = 1) : ∃ (cs : List (Call × Memory)) (h : Handle),
    (∀ i, timesOf (((initialized 16 fun _ => 0).run cs).2.flatMap handles) i ≤ 1 + n) ∧
      (Call.free h, code .success) ∈ (initialized 16 fun _ => 0).history cs ∧
      ((initialized 16 fun _ => 0).run cs).1.book.validateHandle h = true := by
  have hs := good_single ((good_initialized 16 fun _ => 0).allocate 1 noHeap).1 (by decide +kernel) (by decide +kernel)
  have hsz : ((initialized 16 fun _ => 0).allocate 1 noHeap).1.book.size 0 = 1 := by decide +kernel
  have hgen : ((initialized 16 fun _ => 0).allocate 1 noHeap).1.book.generation 0 = 1 := by decide +kernel
  obtain ⟨hg, hl, hlen, hf⟩ := reuse_run n hs hsz
  rw [hgen] at hg hl hlen hf
  refine ⟨(.allocate 1, noHeap) :: reuseCalls n 1, ⟨0, 1⟩, fun i => ?_, mem_cons_of_mem _ (hf hn), ?_⟩
  · have hh : (handles (.handle ((initialized 16 fun _ => 0).allocate 1 noHeap).2)).length ≤ 1 := by decide +kernel
    have ha := Nat.add_le_add hh hlen
    rw [← length_append] at ha
    exact countP_le_length.trans ha
  · exact (validateHandle_iff hg.sound.toPlaced _).mpr ⟨hg.sound.live (mem_singleton_self 0), hl.trans hr⟩

/-- A record is reused fewer than `2 ^ 64 - 2` times, and a handle of it that has been freed is accepted. -/
theorem run_accepts_freed : ∃ (calls : List (Call × Memory)) (h : Handle),
    (∀ i, timesOf (((initialized 16 fun _ => 0).run calls).2.flatMap handles) i - 1 < 2 ^ 64 - 2) ∧
      (Call.free h, code .success) ∈ (initialized 16 fun _ => 0).history calls ∧
      ((initialized 16 fun _ => 0).run calls).1.book.validateHandle h = true := by
  have hr : nextGeneration^[2 * (2 ^ 63 - 1)] 1 = 1 := by
    rw [nextGeneration_iterate one_pos (by decide)]
    decide
  obtain ⟨calls, h, ht, hf, hv⟩ := accepts_of_round (n := 2 ^ 63 - 1) (by decide) hr
  exact ⟨calls, h, fun i => by have := ht i; omega, hf, hv⟩

end Libft.SCMA
