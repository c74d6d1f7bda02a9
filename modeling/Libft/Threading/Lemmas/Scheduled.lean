import Libft.Threading.TaskScheduler

/-!
# What the functions of the heap and the turns do

Of the heap functions only matters here which entries are in the heap afterwards, not their order. What a turn does is said once
(`Move`), with the places it leads from and to.
-/

namespace Libft.Threading

open List Function
open Perm (refl)

/-! ## The heap -/

namespace Heap

variable {K : Type} {l : List (ScheduledTask K)} {idx : ℕ}

/-- Swapping keeps the tasks. -/
theorem swap_perm (l : List (ScheduledTask K)) (i j : ℕ) : swap l i j ~ l := by
  unfold swap
  split
  · rename_i a b ha hb
    obtain ⟨hi, rfl⟩ := List.getElem?_eq_some_iff.mp ha
    obtain ⟨hj, rfl⟩ := List.getElem?_eq_some_iff.mp hb
    exact set_set_perm hi hj
  · exact refl l

/-- Sifting up keeps the tasks. -/
theorem siftUp_perm (fuel : ℕ) (l : List (ScheduledTask K)) (idx : ℕ) : siftUp fuel l idx ~ l := by
  induction fuel generalizing l idx with
  | zero => exact refl l
  | succ fuel ih =>
    rw [siftUp]
    split
    · exact refl l
    · split
      · exact (ih _ _).trans (swap_perm l _ _)
      · exact refl l

/-- Sifting down keeps the tasks. -/
theorem siftDown_perm (fuel : ℕ) (l : List (ScheduledTask K)) (idx : ℕ) : siftDown fuel l idx ~ l := by
  induction fuel generalizing l idx with
  | zero => exact refl l
  | succ fuel ih =>
    rw [siftDown]
    split
    · exact refl l
    · split
      · exact (ih _ _).trans (swap_perm l _ _)
      · exact refl l

/-- A push adds its task. -/
theorem push_perm (l : List (ScheduledTask K)) (task : ScheduledTask K) : push l task ~ task :: l :=
  (siftUp_perm _ _ _).trans (perm_append_singleton task l)

/-- A pop takes its task. -/
theorem pop_perm {task : ScheduledTask K} {tl : List (ScheduledTask K)} (h : pop l = some (task, tl)) : task :: tl ~ l := by
  cases l with
  | nil => cases h
  | cons a l =>
    rw [pop] at h
    split at h
    · rename_i hls
      obtain rfl := getLast?_eq_none_iff.mp hls
      cases h
      exact refl _
    · rename_i last hls
      cases h
      refine ((siftDown_perm _ _ _).trans ?_).cons task
      have hl : l = l.dropLast ++ [last] := (dropLast_append_getLast? last hls).symm
      conv_rhs => rw [hl]
      exact (perm_append_singleton last l.dropLast).symm

/-- An entry is replaced by another. -/
theorem set_perm (l : List (ScheduledTask K)) (h : idx < l.length) (a : ScheduledTask K) : l[idx] :: l.set idx a ~ a :: l := by
  have hs : l = l.take idx ++ l[idx] :: l.drop (idx + 1) := by
    rw [getElem_cons_drop, take_append_drop]
  rw [set_eq_take_append_cons_drop, if_pos h]
  conv_rhs => rw [hs]
  calc l[idx] :: (l.take idx ++ a :: l.drop (idx + 1))
      _ ~ l[idx] :: a :: (l.take idx ++ l.drop (idx + 1)) := perm_middle.cons _
      _ ~ a :: l[idx] :: (l.take idx ++ l.drop (idx + 1)) := Perm.swap ..
      _ ~ a :: (l.take idx ++ l[idx] :: l.drop (idx + 1)) := perm_middle.symm.cons _

/-- Removing an index takes the task there. -/
theorem removeIndex_perm (h : idx < l.length) : l[idx] :: removeIndex l idx ~ l := by
  have hne : l ≠ [] := ne_nil_of_length_pos (Nat.zero_lt_of_lt h)
  have hl : l.dropLast ++ [l.getLast hne] = l := dropLast_append_getLast hne
  unfold removeIndex
  split
  · rename_i hls
    have hs : l[idx] = l.getLast hne := by
      rw [getLast_eq_getElem]
      congr 1
      omega
    rw [hs]
    conv_rhs => rw [← hl]
    exact (perm_append_singleton _ _).symm
  · rename_i hn
    have hd : idx < l.dropLast.length := by
      rw [length_dropLast]
      omega
    have hs : l.dropLast[idx] = l[idx] := getElem_dropLast ..
    rw [getLast?_eq_some_getLast hne]
    calc l[idx] :: siftUp idx (siftDown l.length (l.dropLast.set idx (l.getLast hne)) idx) idx
        _ ~ l[idx] :: l.dropLast.set idx (l.getLast hne) := ((siftUp_perm _ _ _).trans (siftDown_perm _ _ _)).cons _
        _ ~ l.getLast hne :: l.dropLast := hs ▸ set_perm l.dropLast hd _
        _ ~ l.dropLast ++ [l.getLast hne] := (perm_append_singleton _ _).symm
        _ ~ l := Perm.of_eq hl

end Heap

/-! ## Turns -/

namespace Scheduler

variable {T K : Type}

/-- A turn that changes the place of the thread only. -/
inductive Passes (s : Scheduler T K) : SchedLoc K → SchedLoc K → Prop
  | stay (l : SchedLoc K) : Passes s l l
  | begins : Passes s .tStart .tLock
  | ends : Passes s .tStart .done
  | look : Passes s .tHead .tSize
  | quit : Passes s .tHead .tQuit
  | wait (timed : Bool) : Passes s .tSize (.tWait timed)
  | due : Passes s .tSize .tDrain
  | drained : Passes s .tDrain .tEnd
  | pop : Passes s .tDrain .tPop
  | popNot : Passes s .tPop .tQuit
  | skip (e : ScheduledTask K) : s.cancelled e.state = true → Passes s (.tCheck e) .tDrain
  | take (e : ScheduledTask K) (direct : Bool) : s.cancelled e.state = false → Passes s (.tCheck e) (.tUnlock e direct)
  | directNot (e : ScheduledTask K) : Passes s (.tDirect e) (.tRunning e)
  | stopped (e : ScheduledTask K) : s.running = false → Passes s (.tRunning e) .done
  | again (e : ScheduledTask K) : s.running = true → Passes s (.tRunning e) (.tRelock e)
  | next (e : ScheduledTask K) : s.running = true → Passes s (.tRunning e) .tDrain
  | againNot (e : ScheduledTask K) : s.cancelled e.state = true → Passes s (.tAgain e) .tReUnlock
  | repush (e : ScheduledTask K) : s.cancelled e.state = false → Passes s (.tAgain e) (.tRepush e)
  | repushNot (e : ScheduledTask K) : Passes s (.tRepush e) .tReUnlock
  | pushNot (e : ScheduledTask K) (once : Bool) : Passes s (.cPush e once) (.cUnlock e.state once)
  | worker : Passes s .wTop .wPop
  | workerEnds : Passes s .wTop .done
  | workerStops : Passes s .wPop .done

/-- A turn that takes the mutex. -/
inductive Enters : SchedLoc K → SchedLoc K → Prop
  | timer : Enters .tLock .tHead
  | woken (timed : Bool) : Enters (.tAsleep timed) .tHead
  | timedOut : Enters (.tAsleep true) .tDrain
  | again (e : ScheduledTask K) : Enters (.tRelock e) (.tAgain e)
  | make (e : ScheduledTask K) (once : Bool) : Enters (.cLock e once) (.cPush e once)
  | cancel (k : K) : Enters (.xLock k) (.xScan k)

/-- A turn that gives the mutex back. -/
inductive Leaves : SchedLoc K → SchedLoc K → Prop
  | wait (timed : Bool) : Leaves (.tWait timed) (.tAsleep timed)
  | direct (e : ScheduledTask K) : Leaves (.tUnlock e true) (.tDirect e)
  | queue (e : ScheduledTask K) : Leaves (.tUnlock e false) (.tPush e)
  | again : Leaves .tReUnlock .tDrain
  | ends : Leaves .tEnd .tStart
  | quit : Leaves .tQuit .done
  | make (k : K) : Leaves (.cUnlock k true) (.cDirect k)

variable [DecidableEq T] [DecidableEq K]

/-- What a turn does. -/
inductive Move (t : T) (s : Scheduler T K) (o : SchedOwn K) : Scheduler T K → SchedOwn K → Prop
  | pass {l : SchedLoc K} : Passes s o.loc l → Move t s o s (o.goto l)
  | lock {l : SchedLoc K} : s.mutex = none → Enters o.loc l → Move t s o { s with mutex := some t } (o.goto l)
  | release {l : SchedLoc K} : Leaves o.loc l → Move t s o (s.release t) (o.goto l)
  -- the timer with the heap, the queue and the functions
  | pop {e : ScheduledTask K} {heap : List (ScheduledTask K)} : o.loc = .tPop → Heap.pop s.heap = some (e, heap) →
      Move t s o { s with heap } (o.goto (.tCheck e))
  | queue {e : ScheduledTask K} : o.loc = .tPush e → Move t s o { s with queue := s.queue ++ [e.state] } (o.goto (.tRunning e))
  | calls {e : ScheduledTask K} : o.loc = .tPush e ∨ o.loc = .tDirect e → Move t s o (s.start e.state) (o.goto (.tRunning e))
  | repush {e : ScheduledTask K} {now : ℤ} : o.loc = .tRepush e →
      Move t s o { s with heap := Heap.push s.heap { e with time := now + e.interval } } (o.goto .tReUnlock)
  -- the making of a task
  | make {e : ScheduledTask K} {once : Bool} : o.loc = .idle → s.used e.state = false →
      Move t s o { s with used := update s.used e.state true } ⟨.cLock e once, none⟩
  | push {e : ScheduledTask K} {once : Bool} : o.loc = .cPush e once →
      Move t s o { s with heap := Heap.push s.heap e } (o.goto (.cUnlock e.state false))
  | issue {k : K} : o.loc = .cUnlock k false →
      Move t s o { s.release t with issued := update s.issued k true } (o.goto .idle)
  | makeCalls {k : K} : o.loc = .cDirect k →
      Move t s o { s.start k with issued := update s.issued k true } (o.goto .idle)
  -- its cancellation
  | ask {k : K} : o.loc = .idle → s.issued k = true → Move t s o s ⟨.xFlag k, none⟩
  | flag {k : K} : o.loc = .xFlag k → Move t s o { s with cancelled := update s.cancelled k true } (o.goto (.xLock k))
  | scan {k : K} : o.loc = .xScan k → Move t s o (s.scan k) (o.goto (.xUnlock k))
  | cancelled {k : K} : o.loc = .xUnlock k → Move t s o (s.release t) ⟨.idle, some k⟩
  -- the workers
  | fetch {k : K} {rest : List K} : o.loc = .wPop → s.queue = k :: rest → Move t s o { s with queue := rest } (o.goto (.wRun k))
  | work {k : K} : o.loc = .wRun k → Move t s o (s.start k) (o.goto .wTop)
  | stop : Move t s o { s with running := false } o

variable {t u : T} {s s' : Scheduler T K} {o o' : SchedOwn K}

/-- Taking the mutex is a move. -/
theorem lock_move {l : SchedLoc K} (h : Enters o.loc l) : Move t s o (s.lock t o l).1 (s.lock t o l).2 := by
  unfold lock
  split
  · exact .lock ‹_› h
  · exact .pass (.stay _)

/-- Starting a call is a move. -/
theorem begin_move (t : T) (s : Scheduler T K) (now : ℤ) (c : SchedCall K) (hid : o.loc = .idle) :
    Move t s o (s.begin o now c).1 (s.begin o now c).2 := by
  cases c with
  | after k delay =>
    dsimp only [begin]
    split
    · exact .pass (.stay _)
    · exact .make (e := { state := k, time := now + delay }) hid (eq_false_of_ne_true ‹_›)
  | every k interval =>
    dsimp only [begin]
    split
    · exact .pass (.stay _)
    · exact .make (e := { state := k, time := now + interval, interval }) hid (eq_false_of_ne_true ‹_›)
  | cancel k =>
    dsimp only [begin]
    split
    · exact .ask hid ‹_›
    · exact .pass (.stay _)

/-- Going on is a move. -/
theorem go_move (t : T) (s : Scheduler T K) (o : SchedOwn K) (now : ℤ) (ok : Bool) :
    Move t s o (s.go t o now ok).1 (s.go t o now ok).2 := by
  have hp : ∀ {l l' : SchedLoc K}, o.loc = l → Passes s l l' → Move t s o s (o.goto l') := fun hl h => .pass (hl ▸ h)
  unfold go
  cases hl : o.loc with
  | idle | done => exact .pass (.stay _)
  | tStart =>
    cases s.running with
    | true => exact hp hl .begins
    | false => exact hp hl .ends
  | tLock => exact lock_move (hl ▸ .timer)
  | tHead =>
    cases s.running with
    | true => exact hp hl .look
    | false => exact hp hl .quit
  | tSize =>
    dsimp only
    split
    · exact hp hl (.wait false)
    · split
      · exact hp hl (.wait true)
      · exact hp hl .due
  | tWait timed => exact .release (hl ▸ .wait timed)
  | tAsleep timed =>
    refine lock_move (hl ▸ ?_)
    split
    · rename_i ho
      obtain rfl : timed = true := by simpa using (Bool.and_eq_true_iff.mp ho).1
      exact .timedOut
    · exact .woken timed
  | tDrain =>
    dsimp only
    split
    · exact hp hl .drained
    · split
      · exact hp hl .drained
      · exact hp hl .pop
  | tPop =>
    dsimp only
    split
    · exact hp hl .popNot
    · rename_i e he hpop
      exact .pop hl hpop
  | tCheck e =>
    refine hp hl ?_
    split
    · exact .skip e ‹_›
    · exact .take e _ (eq_false_of_ne_true ‹_›)
  | tUnlock e direct =>
    cases direct with
    | true => exact .release (hl ▸ .direct e)
    | false => exact .release (hl ▸ .queue e)
  | tPush e =>
    cases ok with
    | true => exact .queue hl
    | false => exact .calls (.inl hl)
  | tDirect e =>
    dsimp only
    split
    · exact .calls (.inr hl)
    · exact hp hl (.directNot e)
  | tRunning e =>
    cases hr : s.running with
    | false => exact hp hl (.stopped e hr)
    | true =>
      refine hp hl ?_
      rw [if_neg (by simp)]
      split
      · exact .again e hr
      · exact .next e hr
  | tRelock e => exact lock_move (hl ▸ .again e)
  | tAgain e =>
    refine hp hl ?_
    split
    · exact .againNot e ‹_›
    · exact .repush e (eq_false_of_ne_true ‹_›)
  | tRepush e =>
    cases ok with
    | true => exact .repush hl
    | false => exact hp hl (.repushNot e)
  | tReUnlock => exact .release (hl ▸ .again)
  | tEnd => exact .release (hl ▸ .ends)
  | tQuit => exact .release (hl ▸ .quit)
  | cLock e once => exact lock_move (hl ▸ .make e once)
  | cPush e once =>
    cases ok with
    | true => exact .push hl
    | false => exact hp hl (.pushNot e once)
  | cUnlock k direct =>
    cases direct with
    | true => exact .release (hl ▸ .make k)
    | false => exact .issue hl
  | cDirect k => exact .makeCalls hl
  | xFlag k => exact .flag hl
  | xLock k => exact lock_move (hl ▸ .cancel k)
  | xScan k => exact .scan hl
  | xUnlock k => exact .cancelled hl
  | wTop =>
    cases s.running with
    | true => exact hp hl .worker
    | false => exact hp hl .workerEnds
  | wPop =>
    dsimp only
    split
    · cases s.running with
      | true => exact hp hl (.stay _)
      | false => exact hp hl .workerStops
    · exact .fetch hl ‹_›
  | wRun k => exact .work hl

/-- Every turn is a move. -/
theorem turn_move (t : T) (s : Scheduler T K) (o : SchedOwn K) (ch : SchedChoice K) : Move t s o (s.turn t o ch).1 (s.turn t o ch).2 := by
  cases ch with
  | call c now =>
    dsimp only [turn]
    split
    · exact begin_move t s now c ‹_›
    · exact .pass (.stay _)
  | go now ok => exact go_move t s o now ok
  | stop => exact .stop

/-- A turn takes the mutex when it is free, or gives it back if it is the thread's own. -/
theorem Move.mutex (h : Move t s o s' o') :
    s'.mutex = s.mutex ∨ (s.mutex = none ∧ s'.mutex = some t) ∨ (s.mutex = some t ∧ s'.mutex = none) := by
  have hr : (s.release t).mutex = s.mutex ∨ (s.mutex = none ∧ (s.release t).mutex = some t) ∨
      (s.mutex = some t ∧ (s.release t).mutex = none) := by
    by_cases hmn : s.mutex = some t
    · exact .inr (.inr ⟨hmn, if_pos hmn⟩)
    · exact .inl (if_neg hmn)
  cases h with
  | lock hf _ => exact .inr (.inl ⟨hf, rfl⟩)
  | release _ | issue _ | cancelled _ => exact hr
  | scan hl =>
    unfold Scheduler.scan
    split <;> exact .inl rfl
  | _ => exact .inl rfl

/-- What another thread holds it keeps. -/
theorem Move.mutex_other (h : Move t s o s' o') (hu : u ≠ t) (hh : s.mutex = some u) : s'.mutex = some u := by
  rcases h.mutex with hs | ⟨hf, -⟩ | ⟨hmn, -⟩
  · exact hs.trans hh
  · exact absurd (hf.symm.trans hh) (Option.some_ne_none u).symm
  · exact absurd (Option.some.inj (hh.symm.trans hmn)) hu

end Scheduler

end Libft.Threading
