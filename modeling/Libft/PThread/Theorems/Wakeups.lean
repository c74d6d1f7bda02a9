import Libft.PThread.Lemmas.RwTickets

/-!
# No waiter is left behind

A thread asleep is asleep for a reason that ends with a broadcast to it, or a thread is on its way to one. This fails where a thread
gives up: a writer that was the only reason for readers to sleep wakes writers, and a reader that was the last of a phase leaves the
phase open for later readers that wait for its end. Where neither happens, nobody sleeps for nothing.
-/

namespace Libft.PThread

open Finset Own Nat Loc Threads
open Bool (false_ne_true)
open Option (some_ne_none some)

/-- On the way to a broadcast to the readers. -/
def Loc.wakesReaders : Loc → Bool
  | .setOpen _ .readers | .notify .readers => true
  | _ => false

/-- On the way to a broadcast to the writers. -/
def Loc.wakesWriters : Loc → Bool
  | .wakeLoad _ | .wakeMutex _ | .wakeReload _ | .wakeClose _ | .wakeNotify _ => true
  | .rdRefresh | .setOpen _ .writers | .notify .writers => true
  | _ => false

/-- The thread gives up as a writer. -/
def Loc.leavesQueue : Loc → Bool
  | .wrGiveUp _ => true
  | _ => false

/-- The thread gives up as a reader, with or without a ticket. -/
def Loc.leavesReaders : Loc → Option Bool
  | .rdGiveUp waited => some waited
  | _ => none

namespace RwLock

variable {T : Type} {t u : T} {s s' : RwLock T} {o o' : Own} {ch : Choice}

/-- Why readers sleep. -/
def HoldsReaders (s : RwLock T) : Prop := s.activeWriterThread ≠ none ∨ s.readerPhaseOpen = true ∨ s.waitingWriters ≠ 0

/-- Why the writer whose ticket is served sleeps. -/
def HoldsWriters (s : RwLock T) : Prop :=
  s.activeReaders ≠ 0 ∨ s.fastActiveReaders ≠ 0 ∨ s.activeWriterThread ≠ none ∨ s.readerPhaseOpen = true

/-- A writer asleep, or about to sleep. -/
def SleepsAt (s : RwLock T) (t : T) (o : Own) (n : ℕ) : Prop := o.loc = .wrSleep n ∨ (o.loc = .wrWait n ∧ t ∈ s.writerCondition)

/-- The tests that make a reader wait. -/
theorem readerWaits_eq_true {k : ℕ} (h : s.readerWaits (some k) = true) :
    s.activeWriterThread ≠ none ∨ (s.readerPhaseOpen = true ∧ s.readerPhaseCutoff ≤ k) ∨
      (s.readerPhaseOpen = false ∧ s.waitingWriters ≠ 0) := by
  simp only [readerWaits, Option.all_some, Bool.or_eq_true, Bool.and_eq_true, Option.isSome_iff_ne_none, decide_eq_true_eq,
    bne_iff_ne, Bool.not_eq_true'] at h
  rcases h with ha | ⟨_, hp | hw⟩
  · exact .inl ha
  · exact .inr (.inl hp)
  · exact .inr (.inr hw)

/-- The tests that make the writer whose ticket is served wait. -/
theorem writerWaits_eq_true (h : s.writerWaits s.servingWriterTicket = true) : HoldsWriters s := by
  simp only [writerWaits, hasActiveReaders, Bool.or_eq_true, Option.isSome_iff_ne_none, bne_iff_ne, bne_self_eq_false,
    Bool.false_eq_true, or_false, or_assoc] at h
  exact h

variable [DecidableEq T]

/-- A writer that gives up leaves no readers asleep, unless something else will wake them. -/
def GivesUpAlone (s : RwLock T) (o : Own) : Prop :=
  o.loc.leavesQueue = true → s.waitingWriters = 1 → s.activeWriterThread = none → s.readerPhaseOpen = false → s.readerCondition = ∅

/-! ## What a turn does to the sleepers -/

/-- A turn that changes nothing for readers asleep. -/
structure QuietForReaders (s : RwLock T) (o : Own) (s' : RwLock T) (o' : Own) : Prop where
  asleep : s'.readerCondition ⊆ s.readerCondition
  waits : ∀ k, o'.loc = .rdWait k → o.loc = .rdWait k
  holds : HoldsReaders s → HoldsReaders s'
  wakes : o.loc.wakesReaders = true → o'.loc.wakesReaders = true

/-- After a turn readers have a reason to sleep, or one that wakes them, or do not sleep; or nothing has changed for them. -/
inductive ReadersAfter (s : RwLock T) (o : Own) (s' : RwLock T) (o' : Own) : Prop
  | holds (h : HoldsReaders s')
  | wakes (h : o'.loc.wakesReaders = true)
  | awake (h : s'.readerCondition = ∅)
  | gone (h : s'.waitingReaders = 0)
  | quiet (h : QuietForReaders s o s' o')

/-- After a move waiting readers are held back for a reason, or are being woken. -/
theorem Move.holdsReaders (h : Move t s o ch s' o') (hs : Coherent s) (hg : GivesUpAlone s o)
    (hsr : s.activeWriterThread = some t → s.retired.serveNext.1 = true) : ReadersAfter s o s' o' := by
  cases h with
  | look h =>
    refine .quiet ?_
    cases h with
    | stay => exact ⟨subset_rfl, fun _ => id, id, id⟩
    | wakeNot k => rcases k with (_ | _) | _ <;> exact ⟨subset_rfl, by rintro _ ⟨⟩, id, nofun⟩
    | _ => exact ⟨subset_rfl, by rintro _ ⟨⟩, id, nofun⟩
  | lock _ h =>
    refine .quiet ?_
    cases h <;> exact ⟨subset_rfl, by rintro _ ⟨⟩, id, nofun⟩
  | unlock h =>
    refine .quiet ?_
    cases h with
    | wake k => rcases k with (_ | _) | _ <;> exact ⟨subset_rfl, by rintro _ ⟨⟩, id, nofun⟩
    | _ => exact ⟨subset_rfl, by rintro _ ⟨⟩, id, nofun⟩
  | setOpen flag n =>
    cases n with
    | readers => exact .wakes rfl
    | nobody | writers => exact .quiet ⟨subset_rfl, by rintro _ ⟨⟩, id, nofun⟩
  | notify n =>
    cases n with
    | readers => exact .awake rfl
    | nobody | writers => exact .quiet ⟨subset_rfl, by rintro _ ⟨⟩, id, nofun⟩
  | rdSpurious k =>
    exact .quiet ⟨erase_subset _ _, fun _ => id, id, nofun⟩
  | rdSleep k e _ hwa =>
    rcases readerWaits_eq_true hwa with ha | ⟨ho, _⟩ | ⟨_, hw⟩
    · exact .holds (.inl ha)
    · exact .holds (.inr (.inl ho))
    · exact .holds (.inr (.inr hw))
  | rdClose b e _ _ h0 => exact .gone h0
  | rdRefresh | wrWrap =>
    refine .quiet ?_
    split <;> exact ⟨subset_rfl, by rintro _ ⟨⟩, id, nofun⟩
  | rdQueue l e ch hl =>
    refine .quiet ⟨subset_rfl, by rintro _ ⟨⟩, id, ?_⟩
    rcases hl with ⟨rfl, _⟩ | rfl <;> exact nofun
  | ruWriters _ _ _ hw | wuWriters _ _ _ _ _ _ _ _ hw => exact .holds (.inr (.inr hw))
  | ruPhase | wuPhase => exact .holds (.inr (.inl rfl))
  | ruOpen e _ h1 hw hno =>
    rcases hno with h0 | hr
    · exact .gone h0
    · refine .quiet ⟨subset_rfl, by rintro _ ⟨⟩, ?_, nofun⟩
      rintro (ha | ho | hwt)
      · exact .inl ha
      · exact absurd ((hs.phase ho).1.symm.trans hr) (by decide)
      · exact absurd hw hwt
  | wrTryTake | wrTake => exact .holds (.inl (some_ne_none t))
  | wrQueue => exact .holds (.inr (.inr (succ_ne_zero _)))
  | wrGiveUp n =>
    by_cases hh : s.activeWriterThread ≠ none ∨ s.readerPhaseOpen = true
    · rcases hh with ha | ho
      · exact .holds (.inl ha)
      · exact .holds (.inr (.inl ho))
    · obtain ⟨ha, ho⟩ := not_or.mp hh
      by_cases hone : s.waitingWriters = 1
      · exact .awake (hg rfl hone (not_not.mp ha) (eq_false_of_ne_true ho))
      · refine .quiet ⟨subset_rfl, by rintro _ ⟨⟩, ?_, nofun⟩
        rintro (h | h | h)
        · exact absurd h ha
        · exact absurd h ho
        · refine .inr (.inr ?_)
          show s.waitingWriters - 1 ≠ 0
          omega
  | wuFailed e _ next sr cn ha heq =>
    have hok := hsr ha
    rw [heq] at hok
    cases hok
  | wuOpen => exact .wakes rfl
  | _ => exact .quiet ⟨subset_rfl, by rintro _ ⟨⟩, id, nofun⟩

/-- A turn that changes nothing for writers asleep. -/
structure QuietForWriters (t : T) (s : RwLock T) (o : Own) (s' : RwLock T) (o' : Own) : Prop where
  serving : s'.servingWriterTicket = s.servingWriterTicket
  asleep : ∀ u, u ≠ t → u ∈ s'.writerCondition → u ∈ s.writerCondition
  sleeps : SleepsAt s' t o' s.servingWriterTicket → SleepsAt s t o s.servingWriterTicket
  holds : HoldsWriters s → HoldsWriters s'
  wakes : o.loc.wakesWriters = true → o'.loc.wakesWriters = true

omit [DecidableEq T] in
/-- A turn after which the thread is not asleep, and that is not on the way to a broadcast. -/
theorem QuietForWriters.of_awake (hs : s'.servingWriterTicket = s.servingWriterTicket)
    (hl : s'.writerCondition = s.writerCondition) (hh : HoldsWriters s → HoldsWriters s')
    (ha : ∀ n, o'.loc ≠ .wrSleep n ∧ o'.loc ≠ .wrWait n) (hw : o.loc.wakesWriters = false) :
    QuietForWriters t s o s' o' where
  serving := hs
  asleep _ _ h := hl ▸ h
  sleeps h := by
    rcases h with h | ⟨h, _⟩
    · exact absurd h ((ha _).1)
    · exact absurd h ((ha _).2)
  holds := hh
  wakes h := absurd (hw.symm.trans h) false_ne_true

/-- After a turn the writer whose ticket is served has a reason to sleep, or one that wakes it, or nobody sleeps; or nothing has changed
for writers asleep. -/
inductive WritersAfter (t : T) (s : RwLock T) (o : Own) (s' : RwLock T) (o' : Own) : Prop
  | holds (h : HoldsWriters s')
  | wakes (h : o'.loc.wakesWriters = true)
  | gone (h : s'.waitingWriters = 0)
  | awake (hlocked : o.loc.locked = true) (hnone : s'.writerCondition = ∅) (hself : ∀ n, o'.loc ≠ .wrSleep n)
  | quiet (h : QuietForWriters t s o s' o')

/-- The same for waiting writers. -/
theorem Move.holdsWriters (h : Move t s o ch s' o') (hs : s.activeWriterThread = some t → s.retired.serveNext.1 = true)
    (hc : ∀ n, o.loc = .wrCancel n → (s.cancelTicket n).1 = true) : WritersAfter t s o s' o' := by
  cases h with
  | look h =>
    cases h with
    | stay => exact .quiet ⟨rfl, fun _ _ => id, id, id, id⟩
    | wakeNot k _ _ hf => exact .holds (.inr (.inl hf))
    | wakeTry | wakeGo => exact .wakes rfl
    | wakeSkip k _ _ hsk =>
      rcases hsk with hf | h0
      · exact .holds (.inr (.inl hf))
      · exact .gone h0
    | wrBlocked n _ _ hw =>
      by_cases hn : n = s.servingWriterTicket
      · subst hn
        exact .holds (writerWaits_eq_true hw)
      · refine .quiet ⟨rfl, fun _ _ => id, ?_, id, nofun⟩
        rintro (h | ⟨h, _⟩)
        · exact absurd (wrSleep.inj h) hn
        · cases h
    | _ => exact .quiet (.of_awake rfl rfl id (fun _ => ⟨nofun, nofun⟩) rfl)
  | lock _ h =>
    cases h with
    | wake => exact .wakes rfl
    | _ => exact .quiet (.of_awake rfl rfl id (fun _ => ⟨nofun, nofun⟩) rfl)
  | unlock h =>
    refine .quiet ?_
    cases h with
    | wake k => rcases k with (_ | _) | _ <;> exact .of_awake rfl rfl id (fun _ => ⟨nofun, nofun⟩) rfl
    | _ => exact .of_awake rfl rfl id (fun _ => ⟨nofun, nofun⟩) rfl
  | count => exact .holds (.inr (.inl (succ_ne_zero _)))
  | uncount | fastExit | wakeClose | rdClose => exact .wakes rfl
  | wakeNotify | wrCancel => exact .awake rfl rfl (by rintro _ ⟨⟩)
  | setOpen flag n =>
    cases n with
    | writers => exact .wakes rfl
    | nobody | readers => exact .quiet (.of_awake rfl rfl id (fun _ => ⟨nofun, nofun⟩) rfl)
  | notify n =>
    cases n with
    | writers => exact .awake rfl rfl (by rintro _ ⟨⟩)
    | nobody | readers => exact .quiet (.of_awake rfl rfl id (fun _ => ⟨nofun, nofun⟩) rfl)
  | wrSpurious n =>
    refine .quiet ⟨rfl, fun u hu hm => (mem_erase.mp hm).2, ?_, id, nofun⟩
    rintro (h | ⟨_, hm⟩)
    · cases h
    · exact absurd hm (notMem_erase t _)
  | rdTake | rdTakeQueued => exact .holds (.inl (succ_ne_zero _))
  | rdRefresh =>
    by_cases h0 : s.waitingWriters = 0
    · exact .gone h0
    · rw [if_pos h0]
      exact .wakes rfl
  | rdQueue l e ch hl =>
    refine .quiet (.of_awake rfl rfl id (fun _ => ⟨nofun, nofun⟩) ?_)
    rcases hl with ⟨rfl, _⟩ | rfl <;> rfl
  | ruStay e _ h1 => exact .holds (.inl (sub_ne_zero_of_lt h1))
  | ruWriters | wuWriters =>
    refine .wakes ?_
    split <;> rfl
  | ruPhase | wuPhase => exact .holds (.inr (.inr (.inr rfl)))
  | ruOpen _ _ _ h0 | wrWrap _ _ _ _ h0 | wuOpen _ _ _ _ _ _ _ _ h0 => exact .gone h0
  | wrTryTake | wrTake => exact .holds (.inr (.inr (.inl (some_ne_none t))))
  | wrSleep n =>
    refine .quiet ⟨rfl, fun u hu hm => mem_of_mem_insert_of_ne hm hu, ?_, id, nofun⟩
    rintro (h | ⟨h, _⟩)
    · cases h
    · exact .inl (by rw [wrWait.inj h])
  | wrCancelled n e _ _ _ _ heq =>
    have hok := hc n rfl
    rw [heq] at hok
    cases hok
  | wuFailed e _ next sr cn ha heq =>
    have hok := hs ha
    rw [heq] at hok
    cases hok
  | _ => exact .quiet (.of_awake rfl rfl id (fun _ => ⟨nofun, nofun⟩) rfl)

/-- A turn in a phase that stays as it is. A thread that gives up has found others that wait, or that have the lock. -/
structure QuietInPhase (t : T) (s : RwLock T) (o : Own) (s' : RwLock T) (o' : Own) : Prop where
  isOpen : s.readerPhaseOpen = true
  cutoff : s'.readerPhaseCutoff = s.readerPhaseCutoff
  asleep : s'.readerCondition = ∅ ∨
    ((∀ u, u ≠ t → u ∈ s'.readerCondition → u ∈ s.readerCondition) ∧ (o.loc.wakesReaders = true → o'.loc.wakesReaders = true))
  falls : ∀ k, o'.readerTicket = some k → k < s.readerPhaseCutoff → t ∈ s'.readerCondition →
    o.readerTicket = some k ∧ t ∈ s.readerCondition
  active : s.activeReaders ≠ 0 → s'.activeReaders ≠ 0
  goesOn : ∀ k, o.readerTicket = some k → o'.readerTicket = some k ∨ s'.activeReaders ≠ 0 ∨ ∃ b, o'.loc = .rdGiveUp b
  gone : ∀ b, o.loc = .rdGiveUp b → o'.loc = .rdGiveUp b ∨
    (s.activeReaders = 0 → s.fastActiveReaders = 0 → s.waitingReaders - b.toNat ≠ 0)

omit [DecidableEq T] in
/-- A turn of a thread that neither waits as a reader nor gives up as one. -/
theorem QuietInPhase.of_other (ho : s.readerPhaseOpen = true) (hc : s'.readerPhaseCutoff = s.readerPhaseCutoff)
    (ha : s'.readerCondition = s.readerCondition) (hac : s.activeReaders ≠ 0 → s'.activeReaders ≠ 0)
    (hbf : o.readerTicket = none) (haf : o'.readerTicket = none) (hg : ∀ b, o.loc ≠ .rdGiveUp b)
    (hw : o.loc.wakesReaders = false) : QuietInPhase t s o s' o' where
  isOpen := ho
  cutoff := hc
  asleep := .inr ⟨fun _ _ h => ha ▸ h, fun h => absurd (hw.symm.trans h) false_ne_true⟩
  falls k hk := absurd (haf.symm.trans hk).symm (some_ne_none k)
  active := hac
  goesOn k hk := absurd (hbf.symm.trans hk).symm (some_ne_none k)
  gone b hb := absurd hb (hg b)

/-- When a phase is open after a turn, the turn has opened it for readers that wait and is on the way to wake them, or it was open. -/
theorem Move.inPhase (h : Move t s o ch s' o') (hs : Coherent s) (ho : s'.readerPhaseOpen = true) :
    (o'.loc.wakesReaders = true ∧ o.loc.locked = true ∧ o.queuedReader = false ∧ s.waitingReaders ≠ 0 ∧
        s'.readerPhaseCutoff = s.nextReaderTicket) ∨
      QuietInPhase t s o s' o' := by
  cases h with
  | look h =>
    right
    cases h with
    | stay => exact ⟨ho, rfl, .inr ⟨fun _ _ => id, id⟩, fun _ hk _ hm => ⟨hk, hm⟩, id, fun _ => .inl, fun _ => .inl⟩
    | wakeNot k => rcases k with (_ | _) | _ <;> exact .of_other ho rfl rfl id rfl rfl (by rintro _ ⟨⟩) rfl
    | rdError k =>
      exact ⟨ho, rfl, .inr ⟨fun _ _ => id, nofun⟩, by rintro _ ⟨⟩, id, fun _ _ => .inr (.inr ⟨true, rfl⟩), by rintro _ ⟨⟩⟩
    | _ => exact .of_other ho rfl rfl id rfl rfl (by rintro _ ⟨⟩) rfl
  | lock _ h =>
    right
    cases h with
    | rdWoken k _ ha =>
      exact ⟨ho, rfl, .inr ⟨fun _ _ => id, nofun⟩, fun _ _ _ hm => absurd hm ha, id, fun _ => .inl, by rintro _ ⟨⟩⟩
    | rdFailed k ha =>
      exact ⟨ho, rfl, .inr ⟨fun _ _ => id, nofun⟩, by rintro _ ⟨⟩, id, fun _ _ => .inr (.inr ⟨true, rfl⟩), by rintro _ ⟨⟩⟩
    | _ => exact .of_other ho rfl rfl id rfl rfl (by rintro _ ⟨⟩) rfl
  | unlock h =>
    right
    cases h with
    | wake k => rcases k with (_ | _) | _ <;> exact .of_other ho rfl rfl id rfl rfl (by rintro _ ⟨⟩) rfl
    | _ => exact .of_other ho rfl rfl id rfl rfl (by rintro _ ⟨⟩) rfl
  | setOpen flag n =>
    right
    cases n with
    | readers =>
      exact ⟨ho, rfl, .inr ⟨fun _ _ => id, fun _ => rfl⟩, by rintro _ ⟨⟩, id, by rintro _ ⟨⟩, by rintro _ ⟨⟩⟩
    | nobody | writers => exact .of_other ho rfl rfl id rfl rfl (by rintro _ ⟨⟩) rfl
  | notify n =>
    right
    cases n with
    | readers => exact ⟨ho, rfl, .inl rfl, by rintro _ ⟨⟩, id, by rintro _ ⟨⟩, by rintro _ ⟨⟩⟩
    | nobody | writers => exact .of_other ho rfl rfl id rfl rfl (by rintro _ ⟨⟩) rfl
  | rdSpurious k =>
    refine .inr ⟨ho, rfl, .inr ⟨fun u _ hm => (mem_erase.mp hm).2, nofun⟩, ?_, id, fun _ => .inl, by rintro _ ⟨⟩⟩
    exact fun _ _ _ hm => absurd hm (notMem_erase t _)
  | rdQueue l e ch hl =>
    refine .inr ⟨ho, rfl, .inr ⟨fun _ _ => id, ?_⟩, ?_, id, ?_, ?_⟩
    · rcases hl with ⟨rfl, _⟩ | rfl <;> exact nofun
    · intro k hk hlt
      obtain rfl := some.inj hk
      exact absurd hlt (not_lt.mpr (hs.phase ho).2)
    · rcases hl with ⟨rfl, _⟩ | rfl <;> rintro _ ⟨⟩
    · rcases hl with ⟨rfl, _⟩ | rfl <;> rintro _ ⟨⟩
  | rdSleep k e _ hw =>
    refine .inr ⟨ho, rfl, .inr ⟨fun u hu hm => mem_of_mem_insert_of_ne hm hu, nofun⟩, ?_, id, fun _ => .inl, by rintro _ ⟨⟩⟩
    -- in a phase, a reader that goes back to sleep is not of the phase
    intro k' hk hlt
    obtain rfl : k = k' := some.inj hk
    rcases readerWaits_eq_true hw with hac | ⟨_, hle⟩ | ⟨hc, _⟩
    · exact absurd ((hs.writer hac).2.1.symm.trans ho) false_ne_true
    · exact absurd hlt (not_lt.mpr hle)
    · exact absurd (hc.symm.trans ho) false_ne_true
  | rdTakeQueued k =>
    exact .inr ⟨ho, rfl, .inr ⟨fun _ _ => id, nofun⟩, by rintro _ ⟨⟩, fun _ => succ_ne_zero _,
      fun _ _ => .inr (.inl (succ_ne_zero _)), by rintro _ ⟨⟩⟩
  | rdTake => exact .inr (.of_other ho rfl rfl (fun _ => succ_ne_zero _) rfl rfl (by rintro _ ⟨⟩) rfl)
  | rdGiveUp b e _ hg =>
    refine .inr ⟨ho, rfl, .inr ⟨fun _ _ => id, nofun⟩, by rintro _ ⟨⟩, id, by rintro _ ⟨⟩, ?_⟩
    intro b' hb
    rw [← rdGiveUp.inj hb]
    exact .inr (hg ho)
  | rdClose | ruWriters | ruOpen => cases ho
  | rdRefresh | wrWrap | wuWriters =>
    right
    split <;> exact .of_other ho rfl rfl id rfl rfl (by rintro _ ⟨⟩) rfl
  | ruStay e _ h1 => exact .inr (.of_other ho rfl rfl (fun _ => sub_ne_zero_of_lt h1) rfl rfl (by rintro _ ⟨⟩) rfl)
  | ruPhase _ _ _ _ hr | wuPhase _ _ _ _ _ _ _ _ hr => exact .inl ⟨rfl, rfl, rfl, hr, rfl⟩
  | _ => exact .inr (.of_other ho rfl rfl id rfl rfl (by rintro _ ⟨⟩) rfl)

/-! ## Runs -/

/-- A reader that waits in a phase opened for it. -/
def ofPhase (s : RwLock T) (o : Own) : Bool := o.readerTicket.any (· < s.readerPhaseCutoff)

/-- A reader that gives up in a phase leaves it to a reader of the phase, or closes it. -/
def GivesUpPhase (c : System T) (i : T × Choice) : Prop :=
  ∀ b ∈ (c.own i.1).loc.leavesReaders, c.shared.readerPhaseOpen = true →
    c.shared.activeReaders ≠ 0 ∨ (∃ u, u ≠ i.1 ∧ c.shared.ofPhase (c.own u) = true) ∨
      (c.shared.fastActiveReaders = 0 ∧ c.shared.waitingReaders = b.toNat)

/-- A thread that gives up leaves nobody behind. -/
def LeavesNobody (c : System T) (i : T × Choice) : Prop :=
  Keeps (c.own i.1) i.2 ∧ GivesUpAlone c.shared (c.own i.1) ∧ GivesUpPhase c i

/-- Whoever sleeps has a reason to, or one that wakes it. -/
structure Attended [Fintype T] (c : System T) : Prop extends Ticketed c where
  full : Full c.shared (Has Own.ticket c)
  readersAsleep : ∀ r k, (c.own r).loc = .rdWait k → r ∈ c.shared.readerCondition →
    HoldsReaders c.shared ∨ ∃ v, (c.own v).loc.wakesReaders = true
  phaseWoken : c.shared.readerPhaseOpen = true →
    (∀ u k, (c.own u).readerTicket = some k → k < c.shared.readerPhaseCutoff → u ∉ c.shared.readerCondition) ∨
      ∃ v, (c.own v).loc.wakesReaders = true
  phaseUsed : c.shared.readerPhaseOpen = true → c.shared.activeReaders ≠ 0 ∨
    (∃ u k, (c.own u).readerTicket = some k ∧ k < c.shared.readerPhaseCutoff) ∨ ∃ v b, (c.own v).loc = .rdGiveUp b
  writersAsleep : ∀ h, SleepsAt c.shared h (c.own h) c.shared.servingWriterTicket →
    HoldsWriters c.shared ∨ ∃ v, (c.own v).loc.wakesWriters = true

variable [Fintype T] {c : System T} {i : T × Choice}

section

omit [DecidableEq T]

theorem attended_initial (st : Strategy) : Attended (initial T st) where
  toTicketed := ticketed_initial st
  full := ⟨fun n _ hn => absurd hn (not_lt_zero n), fun _ => List.not_mem_nil⟩
  readersAsleep _ _ h := by cases h
  phaseWoken h := absurd h false_ne_true
  phaseUsed h := absurd h false_ne_true
  writersAsleep _ h := by
    rcases h with h | ⟨h, _⟩
    · cases h
    · cases h

/-- A writer that releases finds the next ticket. -/
theorem Ticketed.serves (h : Ticketed c) (t : T) : c.shared.activeWriterThread = some t → c.shared.retired.serveNext.1 = true :=
  fun _ => (serveNext_spec (s := c.shared.retired) h.queued rfl h.counted).1

/-- A writer that gives up finds its ticket. -/
theorem Ticketed.cancels (h : Ticketed c) (t : T) (n : ℕ) (hl : (c.own t).loc = .wrCancel n) : (c.shared.cancelTicket n).1 = true :=
  (cancelTicket_spec h.queued ⟨t, by rw [ticket, hl]⟩).1

/-- A reader that is counted and outside of the mutex waits with a ticket that is out. -/
theorem Orderly.queued_outside (h : Orderly c) (ho : (c.own u).loc.locked = false) (hu : (c.own u).queuedReader = true) :
    ∃ k, (c.own u).loc = .rdWait (some k) ∧ k < c.shared.nextReaderTicket := by
  have hk := h.knows u
  generalize c.own u = o at ho hu hk
  obtain ⟨l, e⟩ := o
  cases l with
  | rdWait ticket =>
    cases ticket with
    | none => cases hu
    | some k => exact ⟨k, rfl, hk⟩
  | rdRetest | rdGiveUp => cases ho
  | _ => cases hu

end

/-- No reader is left asleep without a reason. -/
theorem Attended.readersAsleep_step (h : Attended c) (hi : LeavesNobody c i) (r : T) (k : Option ℕ)
    (hl : ((step c i).own r).loc = .rdWait k) (hm : r ∈ (step c i).shared.readerCondition) :
    HoldsReaders (step c i).shared ∨ ∃ v, ((step c i).own v).loc.wakesReaders = true := by
  rcases (h.move i).holdsReaders h.coherent hi.2.1 (h.serves i.1) with hh | hw | hno | h0 | hq
  · exact .inl hh
  · exact .inr ⟨i.1, by rw [own_step]; exact hw⟩
  · rw [hno] at hm
    exact absurd hm (notMem_empty r)
  · -- a reader asleep is counted
    have ha := h.toTicketed.step i
    obtain ⟨n, rfl⟩ : ∃ n, k = some n := by
      have hc := ha.consistent r
      rw [Own.Consistent, hl] at hc
      cases k with
      | none => exact hc.elim
      | some n => exact ⟨n, rfl⟩
    have hqd : ((step c i).own r).queuedReader = true := by rw [queuedReader, hl]
    exact absurd h0 (ha.queuedReaders.ne_zero.mpr ⟨r, hqd⟩)
  · have hb : (c.own r).loc = .rdWait k := by
      by_cases hr : r = i.1
      · subst hr
        rw [own_step] at hl
        exact hq.waits k hl
      · rw [own_step_other hr] at hl
        exact hl
    rcases h.readersAsleep r k hb (hq.asleep hm) with hh | hw
    · exact .inl (hq.holds hh)
    · exact .inr (exists_own_step (P := fun o : Own => o.loc.wakesReaders = true) hq.wakes hw)

/-- No writer is left asleep when its ticket is served. -/
theorem Attended.writersAsleep_step (h : Attended c) (w : T)
    (hs : SleepsAt (step c i).shared w ((step c i).own w) (step c i).shared.servingWriterTicket) :
    HoldsWriters (step c i).shared ∨ ∃ v, ((step c i).own v).loc.wakesWriters = true := by
  rcases (h.move i).holdsWriters (h.serves i.1) (h.cancels i.1) with hh | hwk | h0 | ⟨hl, hno, hsl⟩ | hq
  · exact .inl hh
  · exact .inr ⟨i.1, by rw [own_step]; exact hwk⟩
  · have hqd : ((step c i).own w).queuedWriter = true := by
      rcases hs with hc | ⟨hc, _⟩
      · rw [queuedWriter, writerTicket, hc]
        rfl
      · rw [queuedWriter, writerTicket, hc]
        rfl
    exact absurd h0 ((h.toTicketed.step i).queuedWriters.ne_zero.mpr ⟨w, hqd⟩)
  · rcases hs with hc | ⟨_, hm⟩
    · by_cases hw : w = i.1
      · subst hw
        rw [own_step] at hc
        exact absurd hc (hsl _)
      · -- another thread about to sleep would have the mutex too
        rw [own_step_other hw] at hc
        exact absurd (h.locks.eq (t := w) (u := i.1) (by rw [hc]; rfl) hl) hw
    · rw [hno] at hm
      exact absurd hm (notMem_empty w)
  · rw [hq.serving] at hs
    have hb : SleepsAt c.shared w (c.own w) c.shared.servingWriterTicket := by
      by_cases hw : w = i.1
      · subst hw
        rw [own_step] at hs
        exact hq.sleeps hs
      · rw [own_step_other hw] at hs
        rcases hs with hc | ⟨hc, hm⟩
        · exact .inl hc
        · exact .inr ⟨hc, hq.asleep w hw hm⟩
    rcases h.writersAsleep w hb with hh | hwk
    · exact .inl (hq.holds hh)
    · exact .inr (exists_own_step (P := fun o : Own => o.loc.wakesWriters = true) hq.wakes hwk)

/-- The readers of an open phase are awake or being woken. -/
theorem Attended.phaseWoken_step (h : Attended c) (ho : (step c i).shared.readerPhaseOpen = true) :
    (∀ u k, ((step c i).own u).readerTicket = some k → k < (step c i).shared.readerPhaseCutoff →
      u ∉ (step c i).shared.readerCondition) ∨ ∃ v, ((step c i).own v).loc.wakesReaders = true := by
  rcases (h.move i).inPhase h.coherent ho with ⟨hw, _⟩ | hq
  · exact .inr ⟨i.1, by rw [own_step]; exact hw⟩
  · rcases hq.asleep with hno | ⟨hl, hw⟩
    · left
      intro u k _ _ hm
      rw [hno] at hm
      exact notMem_empty u hm
    · rcases h.phaseWoken hq.isOpen with ha | hs
      · left
        intro u k hk hlt hm
        rw [hq.cutoff] at hlt
        by_cases hu : u = i.1
        · subst hu
          rw [own_step] at hk
          obtain ⟨hb, hm'⟩ := hq.falls k hk hlt hm
          exact ha i.1 k hb hlt hm'
        · rw [own_step_other hu] at hk
          exact ha u k hk hlt (hl u hu hm)
      · exact .inr (exists_own_step (P := fun o : Own => o.loc.wakesReaders = true) hw hs)

/-- An open phase has a reader that uses it. -/
theorem Attended.phaseUsed_step (h : Attended c) (hi : LeavesNobody c i) (ho : (step c i).shared.readerPhaseOpen = true) :
    (step c i).shared.activeReaders ≠ 0 ∨
      (∃ u k, ((step c i).own u).readerTicket = some k ∧ k < (step c i).shared.readerPhaseCutoff) ∨
        ∃ v b, ((step c i).own v).loc = .rdGiveUp b := by
  rcases (h.move i).inPhase h.coherent ho with ⟨_, hl, hs, hr, hc⟩ | hq
  · -- a reader that waits is outside of the mutex, and its ticket is below the cutoff
    obtain ⟨u, hu⟩ := h.queuedReaders.ne_zero.mp hr
    have hne : u ≠ i.1 := by
      rintro rfl
      exact false_ne_true (hs.symm.trans hu)
    obtain ⟨k, hloc, hlt⟩ := h.queued_outside (h.locks.outside hl hne) hu
    refine .inr (.inl ⟨u, k, ?_, by rw [hc]; exact hlt⟩)
    rw [own_step_other hne, readerTicket, hloc]
  · rw [hq.cutoff]
    rcases h.phaseUsed hq.isOpen with ha | ⟨u, k, hk, hlt⟩ | ⟨v, b, hv⟩
    · exact .inl (hq.active ha)
    · by_cases hu : u = i.1
      · subst hu
        rcases hq.goesOn k hk with hk' | ha | ⟨b, hb⟩
        · exact .inr (.inl ⟨i.1, k, by rw [own_step]; exact hk', hlt⟩)
        · exact .inl ha
        · exact .inr (.inr ⟨i.1, b, by rw [own_step]; exact hb⟩)
      · exact .inr (.inl ⟨u, k, by rw [own_step_other hu]; exact hk, hlt⟩)
    · by_cases hvi : v = i.1
      · subst hvi
        rcases hq.gone b hv with hb | hg
        · exact .inr (.inr ⟨i.1, b, by rw [own_step]; exact hb⟩)
        · have hb : b ∈ (c.own i.1).loc.leavesReaders := by
            rw [hv]
            rfl
          rcases hi.2.2 b hb hq.isOpen with ha | ⟨u, hne, hp⟩ | ⟨hf, hw⟩
          · exact .inl (hq.active ha)
          · obtain ⟨k, hk, hlt⟩ := (Option.any_eq_true _ _).mp hp
            replace hlt := of_decide_eq_true hlt
            exact .inr (.inl ⟨u, k, by rw [own_step_other hne]; exact hk, hlt⟩)
          · by_cases h0 : c.shared.activeReaders = 0
            · exact absurd (by omega) (hg h0 hf)
            · exact .inl (hq.active h0)
      · exact .inr (.inr ⟨v, b, by rw [own_step_other hvi]; exact hv⟩)

/-- Every turn that leaves nobody behind keeps the waiting threads attended. -/
theorem Attended.step (h : Attended c) (hi : LeavesNobody c i) : Attended (step c i) where
  toTicketed := h.toTicketed.step i
  full := (h.reticketed i).2.2 hi.1 h.full
  readersAsleep := h.readersAsleep_step hi
  phaseWoken := h.phaseWoken_step
  phaseUsed := h.phaseUsed_step hi
  writersAsleep := h.writersAsleep_step

omit [Fintype T] in
/-- A thread asleep that no broadcast has woken. -/
def asleep (c : System T) (t : T) : Bool :=
  match (c.own t).loc with
  | .rdWait _ => decide (t ∈ c.shared.readerCondition)
  | .wrWait _ => decide (t ∈ c.shared.writerCondition)
  | _ => false

omit [Fintype T] in
theorem asleep_cases (h : asleep c t = true) :
    (∃ k, (c.own t).loc = .rdWait k ∧ t ∈ c.shared.readerCondition) ∨ ∃ n, (c.own t).loc = .wrWait n ∧ t ∈ c.shared.writerCondition := by
  unfold asleep at h
  split at h
  · exact .inl ⟨_, ‹_›, of_decide_eq_true h⟩
  · exact .inr ⟨_, ‹_›, of_decide_eq_true h⟩
  · cases h

/-- Nobody has the lock, every thread inside a call is asleep, and there is one. -/
structure Stuck (c : System T) : Prop where
  free : ∀ t, (c.own t).holdsRead = false ∧ ¬HoldsWrite c t
  sleeps : ∀ t, (c.own t).loc = .idle ∨ asleep c t = true
  left : ∃ t, asleep c t = true

section Stuck

omit [Fintype T]

/-- Where the threads are in such a state. -/
theorem Stuck.places (h : Stuck c) (t : T) : (c.own t).loc = .idle ∨
    (∃ k, (c.own t).loc = .rdWait k ∧ t ∈ c.shared.readerCondition) ∨ ∃ n, (c.own t).loc = .wrWait n ∧ t ∈ c.shared.writerCondition :=
  (h.sleeps t).imp_right asleep_cases

/-- In such a state a property of places that sleepers and threads outside do not have is of no thread. -/
theorem Stuck.nowhere (h : Stuck c) {P : Loc → Prop} (hid : ¬P .idle) (hr : ∀ k, ¬P (.rdWait k)) (hw : ∀ n, ¬P (.wrWait n)) :
    ¬∃ v, P (c.own v).loc := by
  rintro ⟨v, hv⟩
  rcases h.places v with hl | ⟨k, hl, _⟩ | ⟨n, hl, _⟩
  · exact hid (hl ▸ hv)
  · exact hr k (hl ▸ hv)
  · exact hw n (hl ▸ hv)

/-- Where all are stuck, no writer holds the lock. -/
theorem Stuck.no_writer (h : Stuck c) : c.shared.activeWriterThread = none :=
  Option.eq_none_iff_forall_ne_some.mpr fun t ht => (h.free t).2 ht

/-- Where all are stuck, every reader with a ticket is asleep. -/
theorem Stuck.reader_asleep (h : Stuck c) {k : ℕ} (hu : (c.own u).readerTicket = some k) : u ∈ c.shared.readerCondition := by
  rcases h.places u with hl | ⟨_, _, hm⟩ | ⟨n, hl, _⟩
  · rw [readerTicket, hl] at hu
    cases hu
  · exact hm
  · rw [readerTicket, hl] at hu
    cases hu

/-- Where all are stuck, every writer with a ticket is asleep. -/
theorem Stuck.writer_asleep (h : Stuck c) {n : ℕ} (hu : (c.own u).ticket = some n) : SleepsAt c.shared u (c.own u) n := by
  rcases h.places u with hl | ⟨k, hl, _⟩ | ⟨m, hl, hm⟩
  · rw [ticket, writerTicket, hl] at hu
    cases hu
  · rw [ticket, writerTicket, hl] at hu
    cases hu
  · rw [ticket, writerTicket, hl] at hu
    obtain rfl := some.inj hu
    exact .inr ⟨hl, hm⟩

variable [Fintype T]

/-- Where all are stuck, no reader is active. -/
theorem Stuck.no_readers (h : Stuck c) (hc : Sound c) : c.shared.activeReaders = 0 ∧ c.shared.fastActiveReaders = 0 := by
  have hn t := Bool.or_eq_false_iff.mp (h.free t).1
  constructor
  · exact hc.readers.eq_zero.mpr fun t => (hn t).1
  · refine hc.fast.eq_zero.mpr fun t => ?_
    have hf := (hn t).2
    rcases h.places t with hl | ⟨k, hl, _⟩ | ⟨n, hl, _⟩
    all_goals
      rw [holdsFast, hl] at hf
      rw [counted, hl]
      exact hf

/-- Where all are stuck, no phase is open. -/
theorem Stuck.no_phase (h : Stuck c) (hc : Attended c) : c.shared.readerPhaseOpen = false := by
  by_contra hcl
  have ho := eq_true_of_ne_false hcl
  have hg : ¬∃ v, ∃ b, (c.own v).loc = .rdGiveUp b := h.nowhere (P := fun l => ∃ b, l = .rdGiveUp b) (by simp) (by simp) (by simp)
  rcases hc.phaseUsed ho with ha | ⟨u, k, hk, hlt⟩ | hgv
  · exact ha (h.no_readers hc.toSound).1
  · rcases hc.phaseWoken ho with haw | hw
    · exact haw u k hk hlt (h.reader_asleep hk)
    · exact h.nowhere (P := fun l => l.wakesReaders = true) (by simp [wakesReaders]) (by simp [wakesReaders])
        (by simp [wakesReaders]) hw
  · exact hg hgv

end Stuck

/-- When a thread that gives up leaves nobody behind, nobody is ever left behind. -/
theorem run_not_stuck {strategy : Strategy} {turns : List (T × Choice)} (h : Meets RwLock.step LeavesNobody (initial T strategy) turns) :
    ¬Stuck (run strategy turns) := by
  have he : Attended (run strategy turns) := h.invariant (fun _ i hc hi => hc.step hi) (attended_initial strategy)
  generalize run strategy turns = c at he
  intro hs
  have hwr := hs.no_writer
  have hp := hs.no_phase he
  have hr := hs.no_readers he.toSound
  -- a writer waits: a reader that sleeps has no other reason
  have hwt : c.shared.waitingWriters ≠ 0 := by
    obtain ⟨t, ht⟩ := hs.left
    rcases asleep_cases ht with ⟨k, hl, hm⟩ | ⟨n, hl, _⟩
    · rcases he.readersAsleep t k hl hm with (ha | ho | hw) | hwk
      · exact absurd hwr ha
      · exact absurd (hp.symm.trans ho) false_ne_true
      · exact hw
      · exact absurd hwk (hs.nowhere (P := fun l => l.wakesReaders = true) (by simp [wakesReaders])
          (by simp [wakesReaders]) (by simp [wakesReaders]))
    · exact he.queuedWriters.ne_zero.mpr ⟨t, by rw [queuedWriter, writerTicket, hl]; rfl⟩
  -- the ticket served is with a writer, and it sleeps
  have htc : c.shared.activeWriterHasTicket = false := by
    by_contra htr
    exact he.coherent.ticketed (eq_true_of_ne_false htr) hwr
  have hf : c.shared.first = c.shared.servingWriterTicket := by
    rw [first, htc]
    rfl
  obtain h0 | ⟨n, hn⟩ := he.counted
  · exact hwt h0
  have hrg := he.queued.held_range n hn
  rcases he.full.1 c.shared.first le_rfl (lt_of_le_of_lt hrg.1 hrg.2) with ⟨w, hw⟩ | hcn
  · rw [hf] at hw
    rcases he.writersAsleep w (hs.writer_asleep hw) with (h1 | h1 | h1 | h1) | hwk
    · exact h1 hr.1
    · exact h1 hr.2
    · exact h1 hwr
    · exact false_ne_true (hp.symm.trans h1)
    · exact hs.nowhere (P := fun l => l.wakesWriters = true) (by simp [wakesWriters])
        (by simp [wakesWriters]) (by simp [wakesWriters]) hwk
  · rw [hf] at hcn
    exact he.full.2 htc hcn

omit [DecidableEq T] [Fintype T] in
instance Keeps.decidable (o : Own) (ch : Choice) : Decidable (Keeps o ch) := inferInstanceAs (Decidable (_ → _))

instance GivesUpAlone.decidable (s : RwLock T) (o : Own) : Decidable (GivesUpAlone s o) :=
  inferInstanceAs (Decidable (_ → _ → _ → _ → _))

instance GivesUpPhase.decidable (c : System T) (i : T × Choice) : Decidable (GivesUpPhase c i) :=
  inferInstanceAs (Decidable (∀ b ∈ _, _))

instance LeavesNobody.decidable (c : System T) (i : T × Choice) : Decidable (LeavesNobody c i) :=
  inferInstanceAs (Decidable (_ ∧ _ ∧ _))

/-- Thread 0 reads by the fast path, thread 1 waits to write, gives up and waits again. -/
def patientTurns : List (Fin 3 × Choice) :=
  [(0, .call .rdlock), (0, .go true), (0, .go true), (0, .go true), (1, .call .wrlock), (1, .go true), (1, .go true), (1, .go true),
    (1, .go true), (1, .go true), (1, .go false), (1, .go false), (1, .go true), (1, .go true), (1, .go true), (1, .call .wrlock),
    (1, .go true), (1, .go true), (1, .go true), (1, .go true), (1, .go true)]

/-- The writer is asleep, and the reader it waits for can leave. -/
theorem run_not_stuck_patient : asleep (run .writerPriority patientTurns) 1 = true ∧ ¬Stuck (run .writerPriority patientTurns) :=
  ⟨by decide +kernel, run_not_stuck (by decide +kernel)⟩

/-- Thread 0 reads by the fast path, thread 1 waits to write, and thread 2 waits to read behind it. The wait of thread 1 returns an error,
and thread 0 leaves. -/
def abandoningTurns : List (Fin 3 × Choice) :=
  [(0, .call .rdlock), (0, .go true), (0, .go true), (0, .go true), (1, .call .wrlock), (1, .go true), (1, .go true), (1, .go true),
    (1, .go true), (1, .go true), (2, .call .rdlock), (2, .go true), (2, .go true), (2, .go true), (2, .go true), (1, .go false),
    (1, .go false), (1, .go true), (1, .go true), (1, .go true), (0, .call .rdunlock), (0, .go true), (0, .go true), (0, .go true),
    (0, .go true), (0, .go true), (0, .go true)]

/-- Thread 2 is asleep, nobody has the lock, and nobody will wake it. -/
theorem run_abandons : Stuck (run .writerPriority abandoningTurns) where
  free := by decide +kernel
  sleeps := by decide +kernel
  left := ⟨2, by decide +kernel⟩

end RwLock

end Libft.PThread
