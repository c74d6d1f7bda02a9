import Libft.PThread.Lemmas.RwTurns

/-!
# What holds in every state of the lock

The mutex is held by the one thread inside it, and every counter says how many threads it counts (`Sound`). From these, what the fields
under the mutex say about each other (`Orderly`). Neither needs anything of a run.
-/

namespace Libft.PThread

open Threads Nat Own

@[simp] theorem After.locked_loc (k : After) : k.loc.locked = false := by
  cases k with
  | readLock b => cases b <;> rfl
  | unlock => rfl

namespace RwLock

variable {T : Type} {t : T} {s s' : RwLock T} {o o' : Own} {ch : Choice} {l l' : Loc}

/-! ## The mutex, the entries and the counters -/

theorem Looks.locked (h : Looks t s o ch l) : l.locked = o.loc.locked := by
  cases h with
  | wakeNot k => exact k.locked_loc
  | _ => rfl

/-- Entering takes the mutex. -/
theorem Enters.locked (h : Enters t s l ch l') : l'.locked = true := by
  cases h <;> rfl

/-- Leaving gives the mutex back. -/
theorem Leaves.locked (h : Leaves t s o l) : o.loc.locked = true ∧ l.locked = false := by
  cases h with
  | wake k => exact ⟨rfl, k.locked_loc⟩
  | _ => exact ⟨rfl, rfl⟩

/-- A look at the state counts nobody. -/
theorem Looks.counted (h : Looks t s o ch l) (ho : o.Consistent) (hp : o.counted = true → 0 < s.fastActiveReaders) :
    (o.goto l).counted = o.counted := by
  cases h with
  | wakeNot k => rcases k with (_ | _) | _ <;> rfl
  | ruNone e ch h0 => exact absurd h0 (ne_of_gt (hp rfl))
  | rdFast b e =>
    obtain rfl : e = some true := ho
    rfl
  | _ => rfl

variable [DecidableEq T]

/-- A move keeps the mutex with one thread. -/
theorem Move.locks (h : Move t s o ch s' o') : TurnLocks mutex (fun o : Own => o.loc.locked) t s o s' o' := by
  cases h with
  | look h => exact .inl ⟨rfl, h.locked⟩
  | lock hf h => exact .inr (.inl ⟨hf, rfl, h.locked⟩)
  | unlock h => exact .inr (.inr ⟨h.locked.1, rfl, h.locked.2⟩)
  | rdSleep | rdTake | rdTakeQueued | ruStay | wrSleep => exact .inr (.inr ⟨rfl, rfl, rfl⟩)
  | notify n => exact .inl ⟨by cases n <;> rfl, rfl⟩
  | rdQueue l e ch hl => exact .inl ⟨rfl, by rcases hl with ⟨rfl, _⟩ | rfl <;> rfl⟩
  | setOpen | rdRefresh | ruWriters | wrWrap | wuWriters => exact .inl ⟨rfl, by split <;> rfl⟩
  | _ => exact .inl ⟨rfl, rfl⟩


/-- A move keeps what a thread knows of itself consistent. -/
theorem Move.consistent (h : Move t s o ch s' o') (ho : o.Consistent) : o'.Consistent := by
  cases h with
  | look h =>
    cases h with
    | wakeNot k => rcases k with (_ | _) | _ <;> first | exact ho | trivial
    | stay => exact ho
    | _ => first | rfl | exact ho | trivial
  | lock _ h => cases h <;> exact ho
  | unlock h =>
    cases h with
    | wake k => rcases k with (_ | _) | _ <;> first | exact ho | trivial
    | _ => trivial
  | setOpen | rdRefresh | ruWriters | wrWrap | wuWriters => split <;> first | rfl | trivial
  | rdQueue l e ch hl => rcases hl with ⟨rfl, _⟩ | rfl <;> exact ho
  | _ => first | rfl | exact ho | trivial

/-- A move changes the count of fast readers with its own thread. -/
theorem Move.fast (h : Move t s o ch s' o') (ho : o.Consistent) (hp : o.counted = true → 0 < s.fastActiveReaders) :
    s'.fastActiveReaders + o.counted.toNat = s.fastActiveReaders + o'.counted.toNat := by
  cases h with
  | look h => rw [h.counted ho hp]
  | lock _ h => cases h <;> rfl
  | unlock h =>
    cases h with
    | wake k => rcases k with (_ | _) | _ <;> rfl
    | _ => rfl
  | count b e | recheck b e =>
    obtain rfl : e = some true := ho
    rfl
  | uncount b e | fastExit e =>
    have h0 := hp rfl
    obtain rfl : e = none := ho
    show s.fastActiveReaders - 1 + 1 = s.fastActiveReaders
    omega
  | setOpen | rdRefresh | wrWrap | wuWriters => split <;> rfl
  | notify n => cases n <;> rfl
  | rdQueue l e ch hl => rcases hl with ⟨rfl, _⟩ | rfl <;> rfl
  | fastEntry b e | rdTake b e | rdTakeQueued k e =>
    obtain rfl : e = none := ho
    rfl
  | ruStay e | ruPhase e | ruOpen e =>
    obtain rfl : e = some false := ho
    rfl
  | ruWriters e =>
    obtain rfl : e = some false := ho
    split <;> rfl
  | _ => rfl

/-- A move changes the count of active readers with its own thread. -/
theorem Move.readers (h : Move t s o ch s' o') (ho : o.Consistent) (hp : o.active = true → 0 < s.activeReaders) :
    s'.activeReaders + o.active.toNat = s.activeReaders + o'.active.toNat := by
  cases h with
  | recheck b e =>
    obtain rfl : e = some true := ho
    rfl
  | fastEntry _ e | rdTake _ e | rdTakeQueued _ e =>
    obtain rfl : e = none := ho
    rfl
  | ruStay e _ h1 =>
    obtain rfl : e = some false := ho
    show s.activeReaders - 1 + 1 = s.activeReaders
    omega
  | ruWriters e _ h1 | ruPhase e _ h1 | ruOpen e _ h1 =>
    obtain rfl : e = some false := ho
    exact h1.symm
  | notify n => cases n <;> rfl
  | _ => rfl

/-- A move changes the counts of waiting threads with its own thread. -/
theorem Move.queued (h : Move t s o ch s' o') (hr : o.queuedReader = true → 0 < s.waitingReaders)
    (hw : o.queuedWriter = true → 0 < s.waitingWriters) :
    s'.waitingReaders + o.queuedReader.toNat = s.waitingReaders + o'.queuedReader.toNat ∧
      s'.waitingWriters + o.queuedWriter.toNat = s.waitingWriters + o'.queuedWriter.toNat := by
  cases h with
  | look h =>
    cases h with
    | wakeNot k => rcases k with (_ | _) | _ <;> exact ⟨rfl, rfl⟩
    | _ => exact ⟨rfl, rfl⟩
  | lock _ h => cases h <;> exact ⟨rfl, rfl⟩
  | unlock h =>
    cases h with
    | wake k => rcases k with (_ | _) | _ <;> exact ⟨rfl, rfl⟩
    | _ => exact ⟨rfl, rfl⟩
  | setOpen | rdRefresh | ruWriters | wrWrap | wuWriters => split <;> exact ⟨rfl, rfl⟩
  | notify n => cases n <;> exact ⟨rfl, rfl⟩
  | rdQueue l e ch hl => rcases hl with ⟨rfl, _⟩ | rfl <;> exact ⟨rfl, rfl⟩
  | rdGiveUp b | rdClose b =>
    cases b with
    | false => exact ⟨rfl, rfl⟩
    | true => exact ⟨Nat.sub_add_cancel (hr rfl), rfl⟩
  | rdTakeQueued k => exact ⟨Nat.sub_add_cancel (hr rfl), rfl⟩
  | wrTake n | wrGiveUp n => exact ⟨rfl, Nat.sub_add_cancel (hw rfl)⟩
  | _ => exact ⟨rfl, rfl⟩

/-- The thread has the write lock. -/
def HoldsWrite (c : System T) (t : T) : Prop := c.shared.activeWriterThread = some t

instance HoldsWrite.decidable (c : System T) (t : T) : Decidable (HoldsWrite c t) :=
  inferInstanceAs (Decidable (_ = _))

/-- The mutex, the entries and the counters are right. -/
structure Sound [Fintype T] (c : System T) : Prop where
  locks : Locks mutex (fun o : Own => o.loc.locked) c
  consistent : ∀ t, (c.own t).Consistent
  fast : Counts fastActiveReaders counted c
  readers : Counts activeReaders active c
  queuedReaders : Counts waitingReaders queuedReader c
  queuedWriters : Counts waitingWriters queuedWriter c

variable [Fintype T] {c : System T}

/-- A step is a move of its thread. -/
theorem Sound.move (h : Sound c) (i : T × Choice) :
    Move i.1 c.shared (c.own i.1) i.2 (step c i).shared (turn i.1 c.shared (c.own i.1) i.2).2 :=
  turn_move (h.consistent i.1) i.2

omit [DecidableEq T] in
theorem sound_initial (st : Strategy) : Sound (initial T st) where
  locks t := by simp [initial, Loc.locked]
  consistent t := trivial
  fast := (tally_eq_zero.mpr fun _ => rfl).symm
  readers := (tally_eq_zero.mpr fun _ => rfl).symm
  queuedReaders := (tally_eq_zero.mpr fun _ => rfl).symm
  queuedWriters := (tally_eq_zero.mpr fun _ => rfl).symm

/-- Every step keeps the counters right. -/
theorem Sound.step (h : Sound c) (i : T × Choice) : Sound (step c i) where
  locks := h.locks.step (h.move i).locks
  consistent := forall_own_step (P := fun _ _ (o : Own) => o.Consistent) ((h.move i).consistent (h.consistent i.1))
    fun t _ => h.consistent t
  fast := h.fast.step ((h.move i).fast (h.consistent i.1))
  readers := h.readers.step ((h.move i).readers (h.consistent i.1))
  queuedReaders := h.queuedReaders.step fun hr =>
    ((h.move i).queued hr fun hw => Nat.pos_of_ne_zero (h.queuedWriters.ne_zero.mpr ⟨i.1, hw⟩)).1
  queuedWriters := h.queuedWriters.step fun hw =>
    ((h.move i).queued (fun hr => Nat.pos_of_ne_zero (h.queuedReaders.ne_zero.mpr ⟨i.1, hr⟩)) hw).2

/-! ## The fields under the mutex -/

omit [DecidableEq T] [Fintype T]

/-- What a thread knows at a place. Where it has the mutex, nobody else changes what it knows. -/
def At (s : RwLock T) (o : Own) : Prop :=
  match o.loc with
  | .wrTake n => s.activeReaders = 0 ∧ s.activeWriterThread = none ∧ s.readerPhaseOpen = false ∧ n = s.servingWriterTicket
  | .wrTryTake | .wrWrap true =>
    s.activeReaders = 0 ∧ s.activeWriterThread = none ∧ s.readerPhaseOpen = false ∧ s.nextWriterTicket = s.servingWriterTicket
  | .wrQueue => s.nextWriterTicket ≠ ticketLimit
  | .setOpen true _ => s.activeWriterThread = none ∧ (s.strategy = .writerPriority → s.waitingWriters = 0)
  | .rdWait (some k) | .rdRetest (some k) => k < s.nextReaderTicket
  | _ => True

/-- What the fields say about each other. -/
structure Coherent (s : RwLock T) : Prop where
  writer : s.activeWriterThread ≠ none → s.activeReaders = 0 ∧ s.readerPhaseOpen = false ∧ s.readerFastPathOpen = false
  ticketed : s.activeWriterHasTicket = true → s.activeWriterThread ≠ none
  phase : s.readerPhaseOpen = true → s.strategy = .writerPriority ∧ s.readerPhaseCutoff ≤ s.nextReaderTicket
  closed : s.strategy = .writerPriority → s.waitingWriters ≠ 0 → s.readerFastPathOpen = false

/-- Refreshing the fast path makes the gate follow the state. -/
theorem refresh_coherent (h : Coherent s) : Coherent s.refreshReaderFastPath where
  writer hw := by
    obtain ⟨h1, h2, _⟩ := h.writer hw
    have hsm : s.activeWriterThread ≠ none := hw
    exact ⟨h1, h2, by simp [refreshReaderFastPath, stopsReaders, Option.isSome_iff_ne_none.mpr hsm]⟩
  ticketed := h.ticketed
  phase := h.phase
  closed hs hw := by
    simp only [refreshReaderFastPath] at hs hw
    simp [refreshReaderFastPath, stopsReaders, hs, hw]

theorem stopsReaders_eq_false (h : s.stopsReaders = false) : s.activeWriterThread = none := by
  simp_all [stopsReaders]

/-- A reader that need not wait finds no writer. -/
theorem readerWaits_eq_false {k : ℕ} (h : s.readerWaits (some k) = false) : s.activeWriterThread = none := by
  simp_all [readerWaits]

/-- A writer that need not wait finds the lock free and its ticket served. -/
theorem writerWaits_eq_false {n : ℕ} (h : s.writerWaits n = false) :
    s.activeReaders = 0 ∧ s.fastActiveReaders = 0 ∧ s.activeWriterThread = none ∧ s.readerPhaseOpen = false ∧
      n = s.servingWriterTicket := by
  simp_all [writerWaits, hasActiveReaders]

variable [DecidableEq T]

/-- A move keeps gate and state in step. -/
theorem Move.coherent (h : Move t s o ch s' o') (hs : Coherent s) (ho : At s o) : Coherent s' := by
  cases h with
  | look h => exact hs
  | lock | unlock => exact { hs with }
  | wakeClose k => exact ⟨fun hw => ⟨(hs.writer hw).1, (hs.writer hw).2.1, rfl⟩, hs.ticketed, hs.phase, fun _ _ => rfl⟩
  | setOpen flag n =>
    cases flag with
    | false => exact ⟨fun hw => ⟨(hs.writer hw).1, (hs.writer hw).2.1, rfl⟩, hs.ticketed, hs.phase, fun _ _ => rfl⟩
    | true => exact ⟨fun hw => absurd ho.1 hw, hs.ticketed, hs.phase, fun hp hw => absurd (ho.2 hp) hw⟩
  | notify n => cases n <;> exact { hs with }
  | rdWrap _ _ _ hph => exact { hs with phase := fun hp => absurd (hph.symm.trans hp) Bool.false_ne_true }
  | rdQueue => exact { hs with phase := fun hp => ⟨(hs.phase hp).1, le_succ_of_le (hs.phase hp).2⟩ }
  | rdTake b e _ hst => exact { hs with writer := fun hw => absurd (stopsReaders_eq_false hst) hw }
  | rdTakeQueued k e _ hwt => exact { hs with writer := fun hw => absurd (readerWaits_eq_false hwt) hw }
  | rdClose => exact ⟨fun hw => ⟨(hs.writer hw).1, rfl, (hs.writer hw).2.2⟩, hs.ticketed, nofun, hs.closed⟩
  | rdRefresh => exact refresh_coherent hs
  | ruStay e _ h1 => exact { hs with writer := fun hw => absurd (hs.writer hw).1 (by omega) }
  | ruWriters _ _ _ | ruOpen _ _ _ =>
    exact ⟨fun hw => absurd (hs.writer hw).1 (by omega), hs.ticketed, nofun, hs.closed⟩
  | ruPhase e _ h1 _ _ hp => exact ⟨fun hw => absurd (hs.writer hw).1 (by omega), hs.ticketed, fun _ => ⟨hp, le_rfl⟩, hs.closed⟩
  | wrTryTake => exact ⟨fun _ => ⟨ho.1, ho.2.2.1, rfl⟩, nofun, hs.phase, fun _ _ => rfl⟩
  | wrTake => exact ⟨fun _ => ⟨ho.1, ho.2.2.1, rfl⟩, fun _ => Option.some_ne_none t, hs.phase, fun _ _ => rfl⟩
  | wrQueue =>
    refine ⟨fun hw => ⟨(hs.writer hw).1, (hs.writer hw).2.1, ?_⟩, hs.ticketed, hs.phase, fun hp _ => if_pos hp⟩
    show (if _ then _ else _) = false
    rw [(hs.writer hw).2.2, ite_self]
  | wrGiveUp =>
    refine refresh_coherent ⟨hs.writer, hs.ticketed, hs.phase, fun hp hw => hs.closed hp ?_⟩
    intro h0
    exact hw (by simp [h0])
  | wuFailed | wuWriters | wuOpen => exact ⟨fun h => absurd rfl h, nofun, hs.phase, fun _ _ => rfl⟩
  | wuPhase _ _ _ _ _ _ _ hp =>
    exact ⟨fun h => absurd rfl h, nofun, fun _ => ⟨hp, le_rfl⟩, fun _ _ => rfl⟩
  | _ => exact { hs with }

/-- The thread that moves knows what it should where it comes. -/
theorem Move.at_self (h : Move t s o ch s' o') (hs : Coherent s) (ho : At s o) : At s' o' := by
  cases h with
  | look h =>
    cases h with
    | stay => exact ho
    | wakeNot k => rcases k with (_ | _) | _ <;> trivial
    | wrLimit b _ hf =>
      cases b with
      | false => trivial
      | true =>
        obtain ⟨h1, _, h3, h4, h5⟩ := hf rfl
        exact ⟨h1, h3, h4, h5⟩
    | wrTry _ h1 _ h3 h4 h5 => exact ⟨h1, h3, h4, h5⟩
    | wrRoom _ hrm => exact hrm
    | wrClear n e _ hw =>
      obtain ⟨h1, _, h3, h4, h5⟩ := writerWaits_eq_false hw
      exact ⟨h1, h3, h4, h5⟩
    | _ => trivial
  | lock _ h =>
    cases h with
    | rdWoken => exact ho
    | _ => trivial
  | unlock h =>
    cases h with
    | wake k => rcases k with (_ | _) | _ <;> trivial
    | _ => trivial
  | setOpen | rdRefresh | ruWriters => split <;> trivial
  | rdSpurious | rdSleep => exact ho
  | rdQueue => exact lt_succ_self _
  | ruOpen e _ h1 hw =>
    refine ⟨?_, fun _ => hw⟩
    by_contra hsm
    exact absurd (hs.writer hsm).1 (by omega)
  | wrWrap b =>
    cases b with
    | false => exact (by decide : 0 ≠ ticketLimit)
    | true => exact ⟨ho.1, ho.2.1, ho.2.2.1, rfl⟩
  | wuWriters _ _ _ _ _ _ _ _ hw =>
    split
    · rename_i hr
      exact ⟨rfl, fun hp => absurd (hr.symm.trans hp) (by decide)⟩
    · trivial
  | wuOpen _ _ _ _ _ _ _ _ hw => exact ⟨rfl, fun _ => hw⟩
  | _ => trivial

/-- Outside of the mutex a turn changes the counter of fast readers, the mutex and who sleeps. -/
theorem Move.outside (h : Move t s o ch s' o') (ho : o.loc.locked = false) :
    ∃ m f r w, s' = { s with mutex := m, fastActiveReaders := f, readerCondition := r, writerCondition := w } := by
  cases h with
  | unlock h => exact absurd (h.locked.1.symm.trans ho) (by decide)
  | rdQueue l e ch hl => rcases hl with ⟨rfl, _⟩ | rfl <;> cases ho
  | look | lock | fastUnlock | fastEntry | count | recheck | uncount | fastExit | rdSpurious | wrSpurious => exact ⟨_, _, _, _, rfl⟩
  | _ => cases ho

/-- The others know what they did. -/
theorem Move.at_other {ou : Own} (h : Move t s o ch s' o') (ho : ou.loc.locked = true → o.loc.locked = false)
    (hq : ou.queuedReader = true → 0 < s.waitingReaders) (hou : At s ou) : At s' ou := by
  obtain ⟨l, e⟩ := ou
  cases hl : l.locked with
  | true =>
    obtain ⟨_, _, _, _, rfl⟩ := h.outside (ho hl)
    exact hou
  | false =>
    cases l with
    | rdWait ticket =>
      cases ticket with
      | none => trivial
      | some k =>
        have hk : k < s.nextReaderTicket := hou
        show k < s'.nextReaderTicket
        cases h with
        | rdWrap _ _ h0 => exact absurd h0 (ne_of_gt (hq rfl))
        | rdQueue => exact lt_succ_of_lt hk
        | notify n => cases n <;> exact hk
        | _ => exact hk
    | _ => trivial

/-- A writer becomes active where it takes the lock. -/
theorem Move.becomes (h : Move t s o ch s' o') (hs : s.activeWriterThread = none) (hs' : s'.activeWriterThread ≠ none) :
    s'.activeWriterThread = some t ∧ o.loc.takes = true ∧ o'.holdsFast = o.holdsFast := by
  cases h with
  | wrTake | wrTryTake => exact ⟨rfl, rfl, rfl⟩
  | wuFailed | wuWriters | wuOpen | wuPhase => exact absurd rfl hs'
  | notify n => cases n <;> exact absurd hs hs'
  | _ => exact absurd hs hs'

/-- The fields under the mutex are right, and what the threads know is. -/
structure Orderly [Fintype T] (c : System T) : Prop extends Sound c where
  coherent : Coherent c.shared
  knows : ∀ t, At c.shared (c.own t)

variable [Fintype T] {c : System T}

omit [DecidableEq T] in
theorem orderly_initial (st : Strategy) : Orderly (initial T st) where
  toSound := sound_initial st
  coherent := ⟨fun h => absurd rfl h, nofun, nofun, fun _ h => absurd rfl h⟩
  knows _ := trivial

/-- Every step keeps the lock in order. -/
theorem Orderly.step (h : Orderly c) (i : T × Choice) : Orderly (step c i) where
  toSound := h.toSound.step i
  coherent := (h.move i).coherent h.coherent (h.knows i.1)
  knows := forall_own_step (P := fun _ => At) ((h.move i).at_self h.coherent (h.knows i.1)) fun t ht =>
    (h.move i).at_other (fun hl => h.locks.outside hl (Ne.symm ht))
      (fun hq => Nat.pos_of_ne_zero (h.queuedReaders.ne_zero.mpr ⟨t, hq⟩)) (h.knows t)

end RwLock

end Libft.PThread
