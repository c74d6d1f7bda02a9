import Libft.PThread.RwLock

/-!
# What a turn of a thread does to the lock

Inside the mutex a thread is where `Loc.locked` says. The counters follow the threads they count: fast readers, readers with the lock,
readers and writers that wait. The tickets are changed apart from everything else.
-/

namespace Libft.PThread

/-! ## Places -/

/-- The places at which a thread has the mutex. -/
def Loc.locked : Loc → Bool
  | .wakeReload _ | .wakeClose _ | .wakeNotify _ | .wakeUnlock _ => true
  | .rdEnter _ | .rdWrap | .rdQueue | .rdRetest _ | .rdGiveUp _ | .rdRefresh => true
  | .wrEnter _ | .wrWrap _ | .wrTryTake | .wrQueue | .wrTest _ | .wrSleep _ | .wrTake _ | .wrGiveUp _ | .wrCancel _ => true
  | .ruEnter | .wuEnter | .ulEnter | .setOpen _ _ | .notify _ | .leave => true
  | _ => false

/-- The places of the thread-local entry: it is made before a fast reader is counted, and gone before it is counted out. A reader that
waits has a ticket. -/
def Own.Consistent (o : Own) : Prop :=
  match o.loc with
  | .rdCount _ | .rdRecheck _ => o.entry = some true
  | .ruMutex | .ruEnter => o.entry = some false
  | .idle | .wrMutex _ | .wrEnter _ | .wuMutex | .wuEnter | .setOpen _ _ | .notify _ | .leave => True
  | .rdWait none | .rdRetest none => False
  | _ => o.entry = none

/-- A reader that the counter of fast readers counts. -/
def Own.counted (o : Own) : Bool :=
  match o.loc with
  | .rdCount _ => false
  | .rdUncount _ | .ruLoad | .ruSub => true
  | _ => o.entry == some true

/-- A reader that `active_readers` counts. -/
def Own.active (o : Own) : Bool := o.entry == some false

/-- A reader that `waiting_readers` counts. -/
def Own.queuedReader (o : Own) : Bool :=
  match o.loc with
  | .rdWait (some _) | .rdRetest (some _) | .rdGiveUp true => true
  | _ => false

/-- The ticket of a reader that waits. -/
def Own.readerTicket (o : Own) : Option ℕ :=
  match o.loc with
  | .rdWait ticket | .rdRetest ticket => ticket
  | _ => none

/-- A thread with a reader ticket waits as a reader. -/
theorem Own.queuedReader_of_readerTicket {o : Own} {k : ℕ} (h : o.readerTicket = some k) : o.queuedReader = true := by
  obtain ⟨l, e⟩ := o
  cases l with
  | rdWait ticket | rdRetest ticket =>
    obtain rfl : ticket = some k := h
    rfl
  | _ => cases h

/-- The ticket of a writer that `waiting_writers` counts. -/
def Own.writerTicket (o : Own) : Option ℕ :=
  match o.loc with
  | .wrTest n | .wrSleep n | .wrWait n | .wrTake n | .wrGiveUp n => some n
  | _ => none

/-- A thread with a ticket waits as a writer. -/
def Own.queuedWriter (o : Own) : Bool := o.writerTicket.isSome

/-- A reader with the lock by the fast path: it has looked at the flag a second time. -/
def Own.holdsFast (o : Own) : Bool :=
  match o.loc with
  | .rdCount _ | .rdRecheck _ => false
  | _ => o.entry == some true

/-- A reader with the lock. -/
def Own.holdsRead (o : Own) : Bool := o.active || o.holdsFast

/-- The next turn of the thread makes it the writer. -/
def Loc.takes : Loc → Bool
  | .wrTake _ | .wrTryTake => true
  | _ => false

namespace RwLock

variable {T : Type}

/-! ## Tickets -/

/-- Other tickets. -/
def withTickets (s : RwLock T) (next serving : ℕ) (cancelled : List ℕ) : RwLock T :=
  { s with nextWriterTicket := next, servingWriterTicket := serving, cancelledWriterTickets := cancelled }

/-- Skipping cancelled tickets changes the tickets only. -/
theorem advanceFrom_eq (ts : ℕ) (s : RwLock T) : ∃ serving c, (advanceFrom ts s).2 = s.withTickets s.nextWriterTicket serving c := by
  induction ts generalizing s with
  | zero => exact ⟨_, _, rfl⟩
  | succ ts ih =>
    rw [advanceFrom]
    split
    · dsimp only
      split
      · exact ⟨_, _, rfl⟩
      · obtain ⟨serving, c, h⟩ := ih _
        exact ⟨serving, c, h⟩
    · exact ⟨_, _, rfl⟩

/-- So does cancelling a ticket. -/
theorem cancelTicket_eq (s : RwLock T) (ticket : ℕ) : ∃ next serving c, (s.cancelTicket ticket).2 = s.withTickets next serving c := by
  unfold cancelTicket
  dsimp only
  split
  · obtain ⟨serving, c, h⟩ := advanceFrom_eq _ _
    exact ⟨_, serving, c, h⟩
  · exact ⟨_, _, _, rfl⟩

/-- So does closing the queue. -/
theorem finishWriterQueue_eq (s : RwLock T) : ∃ next serving c, s.finishWriterQueue.2 = s.withTickets next serving c := by
  unfold finishWriterQueue
  split
  · exact ⟨_, _, _, rfl⟩
  · split
    · exact ⟨_, _, _, rfl⟩
    · dsimp only
      generalize hs' : (if s.servingWriterTicket = ticketLimit then s.resetWriterTickets else s) = s'
      have hs : ∃ next serving c, s' = s.withTickets next serving c := by
        rw [← hs']
        split
        · exact ⟨_, _, _, rfl⟩
        · exact ⟨_, _, _, rfl⟩
      obtain ⟨next, serving, c, rfl⟩ := hs
      obtain ⟨sr', c', h⟩ := advanceFrom_eq (s.withTickets next serving c).cancelledWriterTickets.length (s.withTickets next serving c)
      rw [advanceCancelled]
      generalize advanceFrom _ (s.withTickets next serving c) = r at h
      obtain ⟨_ | _, s''⟩ := r
      · exact ⟨_, _, _, h⟩
      · obtain rfl : s'' = _ := h
        show ∃ next serving c, resetIfIdle _ = _
        unfold resetIfIdle
        split
        · exact ⟨_, _, _, rfl⟩
        · exact ⟨_, _, _, rfl⟩

/-- So does serving the next writer. -/
theorem serveNext_eq (s : RwLock T) : ∃ next serving c, s.serveNext.2 = s.withTickets next serving c := by
  unfold serveNext
  split
  · split
    · exact ⟨_, _, _, rfl⟩
    · obtain ⟨next, serving, c, h⟩ := finishWriterQueue_eq { s with servingWriterTicket := s.servingWriterTicket + 1 }
      exact ⟨next, serving, c, h⟩
  · exact ⟨_, _, _, rfl⟩

/-! ## Turns by what they do -/

section Moves

variable [DecidableEq T]

/-- A turn that changes the place of the thread only. -/
inductive Looks (t : T) (s : RwLock T) : Own → Choice → Loc → Prop
  | stay (o ch) : Looks t s o ch o.loc
  | rdCall (b c) : Looks t s ⟨.idle, none⟩ (.call c) (.rdOpen b)
  | wrCall (b e c) : Looks t s ⟨.idle, e⟩ (.call c) (.wrMutex b)
  | ruCall (c) : Looks t s ⟨.idle, some false⟩ (.call c) .ruMutex
  | wuCall (e c) : Looks t s ⟨.idle, e⟩ (.call c) .wuMutex
  | ulCall (c) : Looks t s ⟨.idle, none⟩ (.call c) .ulMutex
  | rdNoRoom (b e ch) : Looks t s ⟨.rdOpen b, e⟩ ch .idle
  | rdClosed (b e ch) : s.readerFastPathOpen = false → Looks t s ⟨.rdOpen b, e⟩ ch (.rdMutex b)
  | rdFast (b e ch) : s.readerFastPathOpen = true → Looks t s ⟨.rdRecheck b, e⟩ ch .idle
  | wakeNot (k e ch) : s.fastActiveReaders ≠ 0 → Looks t s ⟨.wakeLoad k, e⟩ ch k.loc
  | wakeTry (k e ch) : s.fastActiveReaders = 0 → Looks t s ⟨.wakeLoad k, e⟩ ch (.wakeMutex k)
  | wakeGo (k e ch) : s.waitingWriters ≠ 0 → Looks t s ⟨.wakeReload k, e⟩ ch (.wakeClose k)
  | wakeSkip (k e ch) : s.fastActiveReaders ≠ 0 ∨ s.waitingWriters = 0 → Looks t s ⟨.wakeReload k, e⟩ ch (.wakeUnlock k)
  | rdBusy (e ch) : Looks t s ⟨.rdMutex true, e⟩ ch .idle
  | rdLimit (e ch) : Looks t s ⟨.rdEnter false, e⟩ ch .rdWrap
  | rdNoEntry (b e) : s.stopsReaders = false → Looks t s ⟨.rdEnter b, e⟩ (.go false) (.rdGiveUp false)
  | rdError (k e) : Looks t s ⟨.rdRetest (some k), e⟩ (.go false) (.rdGiveUp true)
  | wrBusy (e ch) : Looks t s ⟨.wrMutex true, e⟩ ch .idle
  | wrRefuse (e ch) : Looks t s ⟨.wrEnter true, e⟩ ch .leave
  | wrLimit (b ch) : (b = true → s.activeReaders = 0 ∧ s.fastActiveReaders = 0 ∧ s.activeWriterThread = none ∧
      s.readerPhaseOpen = false ∧ s.nextWriterTicket = s.servingWriterTicket) → Looks t s ⟨.wrEnter b, none⟩ ch (.wrWrap b)
  | wrTry (ch) : s.activeReaders = 0 → s.fastActiveReaders = 0 → s.activeWriterThread = none → s.readerPhaseOpen = false →
      s.nextWriterTicket = s.servingWriterTicket → Looks t s ⟨.wrEnter true, none⟩ ch .wrTryTake
  | wrRoom (ch) : s.nextWriterTicket ≠ ticketLimit → Looks t s ⟨.wrEnter false, none⟩ ch .wrQueue
  | wrFull (b e ch) : Looks t s ⟨.wrWrap b, e⟩ ch .leave
  | wrBlocked (n e ch) : s.writerWaits n = true → Looks t s ⟨.wrTest n, e⟩ ch (.wrSleep n)
  | wrClear (n e ch) : s.writerWaits n = false → Looks t s ⟨.wrTest n, e⟩ ch (.wrTake n)
  | wrError (n e) : Looks t s ⟨.wrSleep n, e⟩ (.go false) (.wrGiveUp n)
  | wrNoMemory (n e) : Looks t s ⟨.wrCancel n, e⟩ (.go false) .leave
  | ruNone (e ch) : s.fastActiveReaders = 0 → Looks t s ⟨.ruLoad, e⟩ ch .idle
  | ruSome (e ch) : Looks t s ⟨.ruLoad, e⟩ ch .ruSub

/-- The places around a lock of the mutex. A thread that slept comes back awake. -/
inductive Enters (t : T) (s : RwLock T) : Loc → Choice → Loc → Prop
  | wake (k ch) : Enters t s (.wakeMutex k) ch (.wakeReload k)
  | rd (b ch) : Enters t s (.rdMutex b) ch (.rdEnter b)
  | wr (b ch) : Enters t s (.wrMutex b) ch (.wrEnter b)
  | ru (ch) : Enters t s .ruMutex ch .ruEnter
  | wu (ch) : Enters t s .wuMutex ch .wuEnter
  | ul (ch) : Enters t s .ulMutex ch .ulEnter
  | rdWoken (k ch) : t ∉ s.readerCondition → Enters t s (.rdWait (some k)) ch (.rdRetest (some k))
  | rdFailed (k) : t ∉ s.readerCondition → Enters t s (.rdWait (some k)) (.go false) (.rdGiveUp true)
  | wrWoken (n ch) : t ∉ s.writerCondition → Enters t s (.wrWait n) ch (.wrTest n)
  | wrFailed (n) : t ∉ s.writerCondition → Enters t s (.wrWait n) (.go false) (.wrGiveUp n)

/-- The places around an unlock of the mutex after which nothing else changes. -/
inductive Leaves (t : T) (s : RwLock T) : Own → Loc → Prop
  | wake (k e) : Leaves t s ⟨.wakeUnlock k, e⟩ k.loc
  | rd (b e) : Leaves t s ⟨.rdEnter b, e⟩ .idle
  | rdFull (e) : Leaves t s ⟨.rdWrap, e⟩ .idle
  | wr (b e) : Leaves t s ⟨.wrEnter b, e⟩ .idle
  | wrNoMemory (e) : Leaves t s ⟨.wrQueue, e⟩ .idle
  | ru (e) : s.activeReaders = 0 → Leaves t s ⟨.ruEnter, e⟩ .idle
  | wu (e) : s.activeWriterThread ≠ some t → Leaves t s ⟨.wuEnter, e⟩ .idle
  | ulWriter (e) : Leaves t s ⟨.ulEnter, e⟩ .wuMutex
  | ul (e) : Leaves t s ⟨.ulEnter, e⟩ .idle
  | leave (e) : Leaves t s ⟨.leave, e⟩ .idle

/-- The lock when a writer begins to leave. -/
def retired (s : RwLock T) : RwLock T := { s with activeWriterThread := none, readerFastPathOpen := false }

/-- The lock when the tickets are settled after a writer. -/
def settled (s : RwLock T) (next serving : ℕ) (cancelled : List ℕ) : RwLock T :=
  { s.retired.withTickets next serving cancelled with activeWriterHasTicket := false }

/-- What a turn does: every outcome of `turn`, with the test that leads to it. -/
inductive Move (t : T) : RwLock T → Own → Choice → RwLock T → Own → Prop
  | look {s o ch l} : Looks t s o ch l → Move t s o ch s (o.goto l)
  | lock {s l e ch l'} : s.mutex = none → Enters t s l ch l' → Move t s ⟨l, e⟩ ch { s with mutex := some t } ⟨l', e⟩
  | unlock {s o ch l} : Leaves t s o l → Move t s o ch { s with mutex := none } (o.goto l)
  -- the fast path
  | fastUnlock (s ch) : Move t s ⟨.idle, some true⟩ ch s ⟨.ruLoad, none⟩
  | fastEntry (s b e ch) : s.readerFastPathOpen = true → Move t s ⟨.rdOpen b, e⟩ ch s ⟨.rdCount b, some true⟩
  | count (s b e ch) : Move t s ⟨.rdCount b, e⟩ ch { s with fastActiveReaders := s.fastActiveReaders + 1 } ⟨.rdRecheck b, e⟩
  | recheck (s b e ch) : s.readerFastPathOpen = false → Move t s ⟨.rdRecheck b, e⟩ ch s ⟨.rdUncount b, none⟩
  | uncount (s b e ch) : Move t s ⟨.rdUncount b, e⟩ ch { s with fastActiveReaders := s.fastActiveReaders - 1 }
      ⟨.wakeLoad (.readLock b), e⟩
  | fastExit (s e ch) : Move t s ⟨.ruSub, e⟩ ch { s with fastActiveReaders := s.fastActiveReaders - 1 } ⟨.wakeLoad .unlock, e⟩
  -- wake-ups
  | wakeClose (s k e ch) : Move t s ⟨.wakeClose k, e⟩ ch { s with readerFastPathOpen := false } ⟨.wakeNotify k, e⟩
  | wakeNotify (s k e ch) : Move t s ⟨.wakeNotify k, e⟩ ch { s with writerCondition := ∅ } ⟨.wakeUnlock k, e⟩
  | setOpen (s flag n e ch) : Move t s ⟨.setOpen flag n, e⟩ ch { s with readerFastPathOpen := flag }
      ⟨if n = .nobody then .leave else .notify n, e⟩
  | notify (s n e ch) : Move t s ⟨.notify n, e⟩ ch (s.broadcast n) ⟨.leave, e⟩
  | rdSpurious (s k e ch) : Move t s ⟨.rdWait (some k), e⟩ ch { s with readerCondition := s.readerCondition.erase t }
      ⟨.rdWait (some k), e⟩
  | wrSpurious (s n e ch) : Move t s ⟨.wrWait n, e⟩ ch { s with writerCondition := s.writerCondition.erase t } ⟨.wrWait n, e⟩
  -- readers
  | rdWrap (s e ch) : s.waitingReaders = 0 → s.readerPhaseOpen = false →
      Move t s ⟨.rdWrap, e⟩ ch { s with nextReaderTicket := 0 } ⟨.rdQueue, e⟩
  | rdQueue (s l e ch) : (l = .rdEnter false ∧ s.stopsReaders = true ∨ l = .rdQueue) →
      Move t s ⟨l, e⟩ ch { s with nextReaderTicket := s.nextReaderTicket + 1, waitingReaders := s.waitingReaders + 1 }
        ⟨.rdRetest (some s.nextReaderTicket), e⟩
  | rdSleep (s k e ch) : s.readerWaits (some k) = true →
      Move t s ⟨.rdRetest (some k), e⟩ ch { s with readerCondition := insert t s.readerCondition, mutex := none }
        ⟨.rdWait (some k), e⟩
  | rdTake (s b e ch) : s.stopsReaders = false →
      Move t s ⟨.rdEnter b, e⟩ ch { s with activeReaders := s.activeReaders + 1, mutex := none } ⟨.idle, some false⟩
  | rdTakeQueued (s k e ch) : s.readerWaits (some k) = false →
      Move t s ⟨.rdRetest (some k), e⟩ ch
        { s with waitingReaders := s.waitingReaders - 1, activeReaders := s.activeReaders + 1, mutex := none } ⟨.idle, some false⟩
  | rdGiveUp (s b e ch) :
      (s.readerPhaseOpen = true → s.activeReaders = 0 → s.fastActiveReaders = 0 → s.waitingReaders - b.toNat ≠ 0) →
      Move t s ⟨.rdGiveUp b, e⟩ ch { s with waitingReaders := s.waitingReaders - b.toNat } ⟨.leave, e⟩
  | rdClose (s b e ch) : s.activeReaders = 0 → s.waitingReaders - b.toNat = 0 →
      Move t s ⟨.rdGiveUp b, e⟩ ch { s with waitingReaders := s.waitingReaders - b.toNat, readerPhaseOpen := false } ⟨.rdRefresh, e⟩
  | rdRefresh (s e ch) : Move t s ⟨.rdRefresh, e⟩ ch s.refreshReaderFastPath
      ⟨if s.waitingWriters ≠ 0 then .notify .writers else .leave, e⟩
  | ruStay (s e ch) : 1 < s.activeReaders →
      Move t s ⟨.ruEnter, e⟩ ch { s with activeReaders := s.activeReaders - 1, mutex := none } ⟨.idle, none⟩
  | ruWriters (s e ch) : s.activeReaders = 1 → s.waitingWriters ≠ 0 →
      Move t s ⟨.ruEnter, e⟩ ch { s with activeReaders := 0, readerPhaseOpen := false }
        ⟨if s.strategy = .writerPriority then .setOpen false .writers else .notify .writers, none⟩
  | ruPhase (s e ch) : s.activeReaders = 1 → s.waitingWriters = 0 → s.waitingReaders ≠ 0 → s.strategy = .writerPriority →
      Move t s ⟨.ruEnter, e⟩ ch { s with activeReaders := 0, readerPhaseOpen := true, readerPhaseCutoff := s.nextReaderTicket }
        ⟨.setOpen false .readers, none⟩
  | ruOpen (s e ch) : s.activeReaders = 1 → s.waitingWriters = 0 → (s.waitingReaders = 0 ∨ s.strategy = .readerPriority) →
      Move t s ⟨.ruEnter, e⟩ ch { s with activeReaders := 0, readerPhaseOpen := false } ⟨.setOpen true .nobody, none⟩
  -- writers
  | wrWrap (s b e ch) : s.servingWriterTicket = ticketLimit → s.waitingWriters = 0 → s.activeWriterThread = none →
      s.activeReaders = 0 → s.fastActiveReaders = 0 →
      Move t s ⟨.wrWrap b, e⟩ ch s.resetWriterTickets ⟨if b then .wrTryTake else .wrQueue, e⟩
  | wrTryTake (s e ch) : Move t s ⟨.wrTryTake, e⟩ ch
      { s with readerFastPathOpen := false, activeWriterThread := some t, activeWriterHasTicket := false } ⟨.leave, e⟩
  | wrQueue (s e ch) : Move t s ⟨.wrQueue, e⟩ ch
      { s with
        readerFastPathOpen := if s.strategy = .writerPriority then false else s.readerFastPathOpen
        nextWriterTicket := s.nextWriterTicket + 1
        waitingWriters := s.waitingWriters + 1 } ⟨.wrTest s.nextWriterTicket, e⟩
  | wrSleep (s n e ch) : Move t s ⟨.wrSleep n, e⟩ ch { s with writerCondition := insert t s.writerCondition, mutex := none }
      ⟨.wrWait n, e⟩
  | wrTake (s n e ch) : Move t s ⟨.wrTake n, e⟩ ch
      { s with
        waitingWriters := s.waitingWriters - 1
        readerFastPathOpen := false
        activeWriterThread := some t
        activeWriterHasTicket := true } ⟨.leave, e⟩
  | wrGiveUp (s n e ch) : Move t s ⟨.wrGiveUp n, e⟩ ch { s with waitingWriters := s.waitingWriters - 1 }.refreshReaderFastPath
      ⟨.wrCancel n, e⟩
  | wrCancel (s n e ch next serving cancelled) : (s.cancelTicket n) = (true, s.withTickets next serving cancelled) →
      Move t s ⟨.wrCancel n, e⟩ ch { s.withTickets next serving cancelled with writerCondition := ∅ } ⟨.leave, e⟩
  | wrCancelled (s n e ch next serving cancelled) : (s.cancelTicket n) = (false, s.withTickets next serving cancelled) →
      Move t s ⟨.wrCancel n, e⟩ ch (s.withTickets next serving cancelled) ⟨.leave, e⟩
  | wuFailed (s e ch next serving cancelled) : s.activeWriterThread = some t →
      s.retired.serveNext = (false, s.retired.withTickets next serving cancelled) →
      Move t s ⟨.wuEnter, e⟩ ch (s.settled next serving cancelled) ⟨.leave, e⟩
  | wuPhase (s e ch next serving cancelled) : s.activeWriterThread = some t →
      s.retired.serveNext = (true, s.retired.withTickets next serving cancelled) →
      s.strategy = .writerPriority → s.waitingReaders ≠ 0 →
      Move t s ⟨.wuEnter, e⟩ ch (s.settled next serving cancelled).openReaderPhase ⟨.setOpen false .readers, e⟩
  | wuWriters (s e ch next serving cancelled) : s.activeWriterThread = some t →
      s.retired.serveNext = (true, s.retired.withTickets next serving cancelled) →
      (s.strategy = .writerPriority → s.waitingReaders = 0) → s.waitingWriters ≠ 0 →
      Move t s ⟨.wuEnter, e⟩ ch (s.settled next serving cancelled)
        ⟨if s.strategy = .readerPriority then .setOpen true .writers else .notify .writers, e⟩
  | wuOpen (s e ch next serving cancelled) : s.activeWriterThread = some t →
      s.retired.serveNext = (true, s.retired.withTickets next serving cancelled) →
      (s.strategy = .writerPriority → s.waitingReaders = 0) → s.waitingWriters = 0 →
      Move t s ⟨.wuEnter, e⟩ ch (s.settled next serving cancelled) ⟨.setOpen true .readers, e⟩

variable {t : T} {s : RwLock T} {o : Own} {ch : Choice}

/-- Taking the mutex is a move. -/
theorem lockMutex_move {tryOnly : Bool} {l : Loc} (h : Enters t s o.loc ch l)
    (ht : tryOnly = true → Looks t s o ch .idle) : Move t s o ch (s.lockMutex t o tryOnly l).1 (s.lockMutex t o tryOnly l).2 := by
  unfold lockMutex
  split
  · exact .lock ‹_› h
  · cases tryOnly with
    | true => exact .look (ht rfl)
    | false => exact .look (.stay o ch)

/-- The same for a lock that waits. -/
theorem awaitMutex_move {l : Loc} (h : Enters t s o.loc ch l) : Move t s o ch (s.lockMutex t o false l).1 (s.lockMutex t o false l).2 :=
  lockMutex_move h nofun

omit [DecidableEq T] in
theorem readerWaits_none (h : s.stopsReaders = false) : s.readerWaits none = false := by
  unfold stopsReaders at h
  unfold readerWaits
  cases hp : s.readerPhaseOpen <;> simp_all

variable {e : Option Bool} {b : Bool}

/-- The test of a waiting reader is a move. -/
theorem readLoop_move {k : ℕ} (ok : Bool) :
    Move t s ⟨.rdRetest (some k), e⟩ (.go ok) (s.readLoop t ⟨.rdRetest (some k), e⟩ false (some k) ok).1
      (s.readLoop t ⟨.rdRetest (some k), e⟩ false (some k) ok).2 := by
  unfold readLoop
  cases hw : s.readerWaits (some k) with
  | true =>
    cases ok with
    | true => exact .rdSleep s k e _ hw
    | false => exact .look (.rdError k e)
  | false =>
    cases ok with
    | true => exact .rdTakeQueued s k e _ hw
    | false => exact .look (.rdError k e)

/-- Releasing a read lock is a move. -/
theorem releaseRead_move (ch : Choice) : Move t s ⟨.ruEnter, e⟩ ch (s.releaseRead ⟨.ruEnter, e⟩).1 (s.releaseRead ⟨.ruEnter, e⟩).2 := by
  unfold releaseRead
  by_cases h0 : s.activeReaders = 0
  · rw [if_pos h0]
    exact .unlock (.ru e h0)
  · rw [if_neg h0]
    dsimp only
    by_cases h1 : s.activeReaders - 1 = 0
    · rw [if_neg (by simpa using h1), h1]
      have ho : s.activeReaders = 1 := by omega
      by_cases hw : s.waitingWriters = 0
      · rw [if_neg (by simpa using hw)]
        by_cases hr : s.waitingReaders ≠ 0 ∧ s.strategy = .writerPriority
        · rw [if_pos hr]
          exact .ruPhase s e ch ho hw hr.1 hr.2
        · rw [if_neg hr]
          refine .ruOpen s e ch ho hw ?_
          cases hs : s.strategy <;> simp_all
      · rw [if_pos hw]
        exact .ruWriters s e ch ho hw
    · rw [if_pos h1]
      exact .ruStay s e ch (by omega)

/-- Releasing a write lock is a move. -/
theorem releaseWrite_move (ch : Choice) :
    Move t s ⟨.wuEnter, e⟩ ch (s.releaseWrite t ⟨.wuEnter, e⟩).1 (s.releaseWrite t ⟨.wuEnter, e⟩).2 := by
  unfold releaseWrite
  by_cases ht : s.activeWriterThread = some t
  · rw [if_neg (by simpa using ht)]
    dsimp only
    obtain ⟨next, sr, c, hsr⟩ := serveNext_eq s.retired
    have hr : { s with activeWriterThread := none, readerFastPathOpen := false }.serveNext =
        (s.retired.serveNext.1, s.retired.withTickets next sr c) := Prod.ext rfl hsr
    rw [hr]
    cases hok : s.retired.serveNext.1 with
    | false => exact .wuFailed s e ch next sr c ht (by rw [← hok]; exact hr)
    | true =>
      rw [hok] at hr
      rw [if_neg (by decide)]
      split
      · rename_i hp
        exact .wuPhase s e ch next sr c ht hr hp.1 hp.2
      · rename_i hp
        have hno : s.strategy = .writerPriority → s.waitingReaders = 0 := fun hs => by_contra fun h => hp ⟨hs, h⟩
        split
        · exact .wuWriters s e ch next sr c ht hr hno ‹_›
        · exact .wuOpen s e ch next sr c ht hr hno (by_contra ‹_›)
  · rw [if_pos ht]
    exact .unlock (.wu e ht)

/-- Entering a read lock is a move. -/
theorem enterRead_move (ok : Bool) : Move t s ⟨.rdEnter b, e⟩ (.go ok) (s.go t ⟨.rdEnter b, e⟩ ok).1 (s.go t ⟨.rdEnter b, e⟩ ok).2 := by
  dsimp only [go]
  split
  · exact .unlock (.rd b e)
  · cases hs : s.stopsReaders with
    | true =>
      cases b with
      | true => exact .unlock (.rd true e)
      | false =>
        simp only [if_true, Bool.false_eq_true, if_false]
        split
        · exact .look (.rdLimit e _)
        · exact .rdQueue s _ e _ (.inl ⟨rfl, hs⟩)
    | false =>
      unfold readLoop
      rw [readerWaits_none hs]
      cases ok with
      | true => exact .rdTake s b e _ hs
      | false => exact .look (.rdNoEntry b e hs)

/-- Entering a write lock is a move. -/
theorem enterWrite_move (ok : Bool) : Move t s ⟨.wrEnter b, e⟩ (.go ok) (s.go t ⟨.wrEnter b, e⟩ ok).1 (s.go t ⟨.wrEnter b, e⟩ ok).2 := by
  dsimp only [go]
  split
  · exact .unlock (.wr b e)
  · rename_i hs
    obtain rfl : e = none := by simpa using fun h => hs (.inr h)
    by_cases hb : b = true ∧ (s.activeWriterThread.isSome ∨ s.hasActiveReaders ∨ s.readerPhaseOpen ∨
        s.nextWriterTicket ≠ s.servingWriterTicket)
    · rw [if_pos hb]
      obtain ⟨rfl, _⟩ := hb
      exact .look (.wrRefuse none _)
    · rw [if_neg hb]
      have hf : b = true → s.activeReaders = 0 ∧ s.fastActiveReaders = 0 ∧ s.activeWriterThread = none ∧
          s.readerPhaseOpen = false ∧ s.nextWriterTicket = s.servingWriterTicket := by
        rintro rfl
        simp only [true_and, not_or, hasActiveReaders] at hb
        simp_all
      split
      · exact .look (.wrLimit b _ hf)
      · cases b with
        | true =>
          obtain ⟨h1, h2, h3, h4, h5⟩ := hf rfl
          exact .look (.wrTry _ h1 h2 h3 h4 h5)
        | false => exact .look (.wrRoom _ ‹_›)

/-- Cancelling a ticket is a move. -/
theorem cancel_move {n : ℕ} (ok : Bool) :
    Move t s ⟨.wrCancel n, e⟩ (.go ok) (s.go t ⟨.wrCancel n, e⟩ ok).1 (s.go t ⟨.wrCancel n, e⟩ ok).2 := by
  cases ok with
  | false => exact .look (.wrNoMemory n e)
  | true =>
    dsimp only [go]
    rw [if_pos rfl]
    obtain ⟨next, sr, c, heq⟩ := cancelTicket_eq s n
    have hr : s.cancelTicket n = ((s.cancelTicket n).1, s.withTickets next sr c) := Prod.ext rfl heq
    rw [hr]
    cases hok : (s.cancelTicket n).1 with
    | true => exact .wrCancel s n e _ next sr c (by rw [hr, hok])
    | false => exact .wrCancelled s n e _ next sr c (by rw [hr, hok])

/-- Starting a call is a move. -/
theorem call_move (c : Call) : Move t s ⟨.idle, e⟩ (.call c) s (Own.begin ⟨.idle, e⟩ c) := by
  have hs : Move t s ⟨.idle, e⟩ (.call c) s ⟨.idle, e⟩ := .look (.stay ⟨.idle, e⟩ (.call c))
  cases c with
  | rdlock | tryRdlock =>
    cases e with
    | none => exact .look (.rdCall _ _)
    | some f => exact hs
  | wrlock | tryWrlock => exact .look (.wrCall _ e _)
  | rdunlock =>
    match e with
    | none => exact hs
    | some true => exact .fastUnlock s _
    | some false => exact .look (.ruCall _)
  | wrunlock => exact .look (.wuCall e _)
  | unlock =>
    match e with
    | none => exact .look (.ulCall _)
    | some true => exact .fastUnlock s _
    | some false => exact .look (.ruCall _)

/-- Every turn of a thread within a call is a move. -/
theorem go_move (hc : o.Consistent) (ok : Bool) : Move t s o (.go ok) (s.go t o ok).1 (s.go t o ok).2 := by
  obtain ⟨l, e⟩ := o
  cases l with
  | idle => exact .look (.stay _ _)
  | rdOpen b =>
    dsimp only [go]
    split
    · cases ok with
      | true => exact .fastEntry s b e _ ‹_›
      | false => exact .look (.rdNoRoom b e _)
    · exact .look (.rdClosed b e _ (eq_false_of_ne_true ‹_›))
  | rdCount b =>
    cases ok with
    | true => exact .count s b e _
    | false => exact .look (.stay _ _)
  | rdRecheck b =>
    dsimp only [go]
    split
    · exact .look (.rdFast b e _ ‹_›)
    · exact .recheck s b e _ (eq_false_of_ne_true ‹_›)
  | rdUncount b => exact .uncount s b e _
  | wakeLoad k =>
    dsimp only [go]
    split
    · exact .look (.wakeNot k e _ ‹_›)
    · exact .look (.wakeTry k e _ (not_not.mp ‹_›))
  | wakeMutex k => exact awaitMutex_move (.wake k _)
  | wakeReload k =>
    dsimp only [go]
    split
    · rename_i h
      exact .look (.wakeGo k e _ h.2)
    · rename_i h
      exact .look (.wakeSkip k e _ (by tauto))
  | wakeClose k => exact .wakeClose s k e _
  | wakeNotify k => exact .wakeNotify s k e _
  | wakeUnlock k => exact .unlock (.wake k e)
  | rdMutex b => exact lockMutex_move (.rd b _) (by rintro rfl; exact .rdBusy e _)
  | rdEnter b => exact enterRead_move ok
  | rdWrap =>
    dsimp only [go]
    split
    · rename_i h
      exact .rdWrap s e _ h.1 (by simpa using h.2.2)
    · exact .unlock (.rdFull e)
  | rdQueue => exact .rdQueue s _ e _ (.inr rfl)
  | rdWait ticket =>
    cases ticket with
    | none => exact hc.elim
    | some k =>
      dsimp only [go]
      split
      · cases ok with
        | true => exact .look (.stay _ _)
        | false => exact .rdSpurious s k e _
      · cases ok with
        | true => exact awaitMutex_move (.rdWoken k _ ‹_›)
        | false => exact awaitMutex_move (.rdFailed k ‹_›)
  | rdRetest ticket =>
    cases ticket with
    | none => exact hc.elim
    | some k => exact readLoop_move ok
  | rdGiveUp b =>
    have ht : (if b then s.waitingReaders - 1 else s.waitingReaders) = s.waitingReaders - b.toNat := by cases b <;> rfl
    dsimp only [go, closeEmptyReaderPhase]
    rw [ht]
    split
    · rename_i h
      have hno : s.activeReaders = 0 := by simp_all [hasActiveReaders]
      exact .rdClose s b e _ hno h.2.2
    · rename_i h
      refine .rdGiveUp s b e _ fun ho h1 h2 h3 => h ⟨ho, ?_, h3⟩
      simp [hasActiveReaders, h1, h2]
  | rdRefresh => exact .rdRefresh s e _
  | wrMutex b => exact lockMutex_move (.wr b _) (by rintro rfl; exact .wrBusy e _)
  | wrEnter b => exact enterWrite_move ok
  | wrWrap b =>
    dsimp only [go]
    split
    · rename_i h
      have hno : s.activeReaders = 0 ∧ s.fastActiveReaders = 0 := by simp_all [hasActiveReaders]
      exact .wrWrap s b e _ h.1 h.2.1 h.2.2.1 hno.1 hno.2
    · exact .look (.wrFull b e _)
  | wrTryTake => exact .wrTryTake s e _
  | wrQueue =>
    cases ok with
    | true => exact .wrQueue s e _
    | false => exact .unlock (.wrNoMemory e)
  | wrTest n =>
    dsimp only [go]
    cases hw : s.writerWaits n with
    | true => exact .look (.wrBlocked n e _ hw)
    | false => exact .look (.wrClear n e _ hw)
  | wrSleep n =>
    cases ok with
    | true => exact .wrSleep s n e _
    | false => exact .look (.wrError n e)
  | wrWait n =>
    dsimp only [go]
    split
    · cases ok with
      | true => exact .look (.stay _ _)
      | false => exact .wrSpurious s n e _
    · cases ok with
      | true => exact awaitMutex_move (.wrWoken n _ ‹_›)
      | false => exact awaitMutex_move (.wrFailed n ‹_›)
  | wrTake n => exact .wrTake s n e _
  | wrGiveUp n => exact .wrGiveUp s n e _
  | wrCancel n => exact cancel_move ok
  | ruLoad =>
    dsimp only [go]
    split
    · exact .look (.ruNone e _ ‹_›)
    · exact .look (.ruSome e _)
  | ruSub => exact .fastExit s e _
  | ruMutex => exact awaitMutex_move (.ru _)
  | ruEnter => exact releaseRead_move _
  | wuMutex => exact awaitMutex_move (.wu _)
  | wuEnter => exact releaseWrite_move _
  | ulMutex => exact awaitMutex_move (.ul _)
  | ulEnter =>
    dsimp only [go]
    split
    · exact .unlock (.ulWriter e)
    · exact .unlock (.ul e)
  | setOpen flag n => exact .setOpen s flag n e _
  | notify n => exact .notify s n e _
  | leave => exact .unlock (.leave e)

/-- A turn is one of the moves. -/
theorem turn_move (hc : o.Consistent) (ch : Choice) : Move t s o ch (s.turn t o ch).1 (s.turn t o ch).2 := by
  cases ch with
  | go ok => exact go_move hc ok
  | call c =>
    dsimp only [turn]
    split
    · obtain ⟨l, e⟩ := o
      obtain rfl : l = .idle := ‹_›
      exact call_move c
    · exact .look (.stay o _)

end Moves

end RwLock

end Libft.PThread
