import Libft.Lib.Threads

/-!
# The reader/writer lock with a strategy

`pt_rwlock_strategy_*`, for any number of threads. The fields that the native mutex protects are read and written by the thread that
holds it, the counter of fast readers and the flag that opens the fast path by anyone. A turn is one access to the counter or the flag,
or one operation on the mutex or a condition, with the accesses to the protected fields that go with it; between two turns of a thread
the others may take any number of theirs. A condition is the set of the threads asleep on it.
-/

namespace Libft.PThread

/-- `e_pt_rwlock_strategy`. -/
inductive Strategy
  | readerPriority
  | writerPriority
  deriving DecidableEq, Repr

/-- `UINT64_MAX`, at which tickets end. -/
def ticketLimit : ℕ := 2 ^ 64 - 1

/-- `s_pt_rwlock`. A writer is active when a thread is named. -/
structure RwLock (T : Type) where
  strategy : Strategy
  mutex : Option T := none
  readerCondition : Finset T := ∅
  writerCondition : Finset T := ∅
  activeReaders : ℕ := 0
  waitingReaders : ℕ := 0
  waitingWriters : ℕ := 0
  nextWriterTicket : ℕ := 0
  servingWriterTicket : ℕ := 0
  nextReaderTicket : ℕ := 0
  readerPhaseCutoff : ℕ := 0
  activeWriterThread : Option T := none
  activeWriterHasTicket : Bool := false
  readerPhaseOpen : Bool := false
  cancelledWriterTickets : List ℕ := []
  fastActiveReaders : ℕ := 0
  readerFastPathOpen : Bool := true

namespace RwLock

variable {T : Type}

/-- `pt_rwlock_strategy_has_active_readers`. -/
def hasActiveReaders (s : RwLock T) : Bool := s.activeReaders != 0 || s.fastActiveReaders != 0

/-- What stops a reader that comes: a writer that is active, and in writer-priority mode one that waits, or a phase. -/
def stopsReaders (s : RwLock T) : Bool :=
  s.activeWriterThread.isSome ||
    (s.strategy == .writerPriority && (s.waitingWriters != 0 || s.readerPhaseOpen))

/-- The condition of the loop in `pt_rwlock_strategy_read_lock_internal`: in a phase only the tickets below the cutoff pass. -/
def readerWaits (s : RwLock T) (ticket : Option ℕ) : Bool :=
  s.activeWriterThread.isSome ||
    (s.strategy == .writerPriority &&
      ((s.readerPhaseOpen && ticket.all (s.readerPhaseCutoff ≤ ·)) || (!s.readerPhaseOpen && s.waitingWriters != 0)))

/-- The condition of the loop in `pt_rwlock_strategy_write_lock_internal`. -/
def writerWaits (s : RwLock T) (ticket : ℕ) : Bool :=
  s.hasActiveReaders || s.activeWriterThread.isSome || s.readerPhaseOpen || ticket != s.servingWriterTicket

/-- `pt_rwlock_strategy_refresh_reader_fast_path`. -/
def refreshReaderFastPath (s : RwLock T) : RwLock T := { s with readerFastPathOpen := !s.stopsReaders }

/-- `pt_rwlock_strategy_advance_cancelled`: as long as the ticket served is cancelled, the next one is served. There is one turn for
each cancelled ticket at most. -/
def advanceFrom : ℕ → RwLock T → Bool × RwLock T
  | 0, s => (true, s)
  | turns + 1, s =>
    if s.servingWriterTicket ∈ s.cancelledWriterTickets then
      let s' := { s with cancelledWriterTickets := s.cancelledWriterTickets.erase s.servingWriterTicket }
      if s.servingWriterTicket = ticketLimit then (false, s')
      else advanceFrom turns { s' with servingWriterTicket := s.servingWriterTicket + 1 }
    else (true, s)

def advanceCancelled (s : RwLock T) : Bool × RwLock T := advanceFrom s.cancelledWriterTickets.length s

/-- `pt_rwlock_strategy_cancel_ticket`, when there is memory for the ticket. -/
def cancelTicket (s : RwLock T) (ticket : ℕ) : Bool × RwLock T :=
  let s' := { s with cancelledWriterTickets := s.cancelledWriterTickets ++ [ticket] }
  if ticket = s.servingWriterTicket then s'.advanceCancelled else (true, s')

/-- Tickets start again from zero. -/
def resetWriterTickets (s : RwLock T) : RwLock T := { s with servingWriterTicket := 0, nextWriterTicket := 0 }

/-- The last test of `pt_rwlock_strategy_finish_writer_queue`. -/
def resetIfIdle (s : RwLock T) : RwLock T :=
  if s.waitingWriters = 0 ∧ s.activeWriterThread = none ∧ s.nextWriterTicket = s.servingWriterTicket ∧
      s.cancelledWriterTickets = [] then s.resetWriterTickets
  else s

/-- `pt_rwlock_strategy_finish_writer_queue`. -/
def finishWriterQueue (s : RwLock T) : Bool × RwLock T :=
  if s.waitingWriters = 0 ∧ s.activeWriterThread = none ∧ s.nextWriterTicket = s.servingWriterTicket then (true, s.resetWriterTickets)
  else if s.servingWriterTicket = ticketLimit ∧ (s.waitingWriters ≠ 0 ∨ s.activeWriterThread ≠ none) then (false, s)
  else
    let s' := if s.servingWriterTicket = ticketLimit then s.resetWriterTickets else s
    match s'.advanceCancelled with
    | (true, s'') => (true, s''.resetIfIdle)
    | (false, s'') => (false, s'')

/-- A phase for the readers that wait now. -/
def openReaderPhase (s : RwLock T) : RwLock T := { s with readerPhaseOpen := true, readerPhaseCutoff := s.nextReaderTicket }

end RwLock

/-! ## Where a thread is -/

/-- Where `pt_rwlock_strategy_wake_writer_after_reader_exit` returns to. -/
inductive After
  | readLock (tryOnly : Bool)
  | unlock
  deriving DecidableEq, Repr

/-- The threads a broadcast is for. -/
inductive Notify
  | nobody
  | readers
  | writers
  deriving DecidableEq, Repr

/-- The next turn of a thread, by what it does. -/
inductive Loc
  /-- Outside of every call. -/
  | idle
  -- `pt_rwlock_strategy_try_fast_read_lock`: the flag, the counter, the flag again, the counter back
  | rdOpen (tryOnly : Bool)
  | rdCount (tryOnly : Bool)
  | rdRecheck (tryOnly : Bool)
  | rdUncount (tryOnly : Bool)
  -- `pt_rwlock_strategy_wake_writer_after_reader_exit`
  | wakeLoad (k : After)
  | wakeMutex (k : After)
  | wakeReload (k : After)
  | wakeClose (k : After)
  | wakeNotify (k : After)
  | wakeUnlock (k : After)
  -- `pt_rwlock_strategy_read_lock_internal`, after the fast path
  | rdMutex (tryOnly : Bool)
  | rdEnter (tryOnly : Bool)
  | rdWrap
  | rdQueue
  | rdWait (ticket : Option ℕ)
  | rdRetest (ticket : Option ℕ)
  | rdGiveUp (waited : Bool)
  | rdRefresh
  -- `pt_rwlock_strategy_write_lock_internal`
  | wrMutex (tryOnly : Bool)
  | wrEnter (tryOnly : Bool)
  | wrWrap (tryOnly : Bool)
  | wrTryTake
  | wrQueue
  | wrTest (ticket : ℕ)
  | wrSleep (ticket : ℕ)
  | wrWait (ticket : ℕ)
  | wrTake (ticket : ℕ)
  | wrGiveUp (ticket : ℕ)
  | wrCancel (ticket : ℕ)
  -- `pt_rwlock_strategy_rdunlock`
  | ruLoad
  | ruSub
  | ruMutex
  | ruEnter
  -- `pt_rwlock_strategy_wrunlock`
  | wuMutex
  | wuEnter
  -- `pt_rwlock_strategy_unlock`
  | ulMutex
  | ulEnter
  -- the ends of calls: the flag is set, the broadcast is made, the mutex is unlocked
  | setOpen (flag : Bool) (n : Notify)
  | notify (n : Notify)
  | leave
  deriving DecidableEq, Repr

/-- A thread: where it is, and its thread-local entry for the lock, with `fast_path`. -/
structure Own where
  loc : Loc := .idle
  entry : Option Bool := none
  deriving DecidableEq, Repr

/-- The calls. -/
inductive Call
  | rdlock
  | tryRdlock
  | wrlock
  | tryWrlock
  | rdunlock
  | wrunlock
  | unlock
  deriving DecidableEq, Repr

/-- What happens in a turn: a thread outside of every call makes one, or a thread goes on. It goes on with `false` where something
outside of the lock fails: there is no room for an entry, no memory, a condition wait returns an error, a compare-and-exchange fails
or a thread wakes up without a broadcast. -/
inductive Choice
  | call (c : Call)
  | go (ok : Bool)
  deriving DecidableEq, Repr

namespace Own

/-- `pt_rwlock_strategy_rdunlock` of a thread with an entry: the entry of a fast reader goes at once. -/
def beginUnlock (o : Own) : Own :=
  match o.entry with
  | none => o
  | some true => ⟨.ruLoad, none⟩
  | some false => { o with loc := .ruMutex }

/-- A call begins; one that fails by the entry alone is over. -/
def begin (o : Own) : Call → Own
  | .rdlock => if o.entry.isSome then o else { o with loc := .rdOpen false }
  | .tryRdlock => if o.entry.isSome then o else { o with loc := .rdOpen true }
  | .wrlock => { o with loc := .wrMutex false }
  | .tryWrlock => { o with loc := .wrMutex true }
  | .rdunlock => o.beginUnlock
  | .wrunlock => { o with loc := .wuMutex }
  | .unlock => if o.entry.isSome then o.beginUnlock else { o with loc := .ulMutex }

/-- Go on elsewhere. -/
def goto (o : Own) (loc : Loc) : Own := { o with loc }

end Own

/-- Where a thread goes on after it left. -/
def After.loc : After → Loc
  | .readLock true => .idle
  | .readLock false => .rdMutex false
  | .unlock => .idle

namespace RwLock

variable {T : Type} [DecidableEq T]

/-- `pthread_mutex_lock`, or `pthread_mutex_trylock`, which returns at once. -/
def lockMutex (t : T) (s : RwLock T) (o : Own) (tryOnly : Bool) (next : Loc) : RwLock T × Own :=
  if s.mutex = none then ({ s with mutex := some t }, o.goto next)
  else if tryOnly then (s, o.goto .idle)
  else (s, o)

/-- Release the mutex. -/
def unlockMutex (s : RwLock T) (o : Own) (next : Loc) : RwLock T × Own := ({ s with mutex := none }, o.goto next)

/-- The rest of `pt_rwlock_strategy_read_lock_internal` from the test of the loop on: the reader waits, or has the lock once it has its
entry. -/
def readLoop (t : T) (s : RwLock T) (o : Own) (tryOnly : Bool) (ticket : Option ℕ) (ok : Bool) : RwLock T × Own :=
  if s.readerWaits ticket then
    if tryOnly then { s with waitingReaders := s.waitingReaders - 1 }.unlockMutex o .idle
    else if ok then { s with readerCondition := insert t s.readerCondition }.unlockMutex o (.rdWait ticket)
    else (s, o.goto (.rdGiveUp true))
  else if ok then
    { s with
      waitingReaders := if ticket.isSome then s.waitingReaders - 1 else s.waitingReaders
      activeReaders := s.activeReaders + 1 }.unlockMutex { o with entry := some false } .idle
  else (s, o.goto (.rdGiveUp ticket.isSome))

/-- A reader takes a ticket and comes to the loop. -/
def queueReader (s : RwLock T) (o : Own) : RwLock T × Own :=
  ({ s with nextReaderTicket := s.nextReaderTicket + 1, waitingReaders := s.waitingReaders + 1 },
    o.goto (.rdRetest (some s.nextReaderTicket)))

/-- `pt_rwlock_strategy_close_empty_reader_phase`, after the reader is counted out. -/
def closeEmptyReaderPhase (s : RwLock T) (o : Own) : RwLock T × Own :=
  if s.readerPhaseOpen ∧ ¬s.hasActiveReaders ∧ s.waitingReaders = 0 then ({ s with readerPhaseOpen := false }, o.goto .rdRefresh)
  else (s, o.goto .leave)

/-- `pt_rwlock_strategy_rdunlock` with the mutex, of a reader without the fast path. -/
def releaseRead (s : RwLock T) (o : Own) : RwLock T × Own :=
  if s.activeReaders = 0 then s.unlockMutex o .idle
  else
    let s := { s with activeReaders := s.activeReaders - 1 }
    let o := { o with entry := none }
    if s.activeReaders ≠ 0 then s.unlockMutex o .idle
    else
      let s := { s with readerPhaseOpen := false }
      if s.waitingWriters ≠ 0 then
        (s, o.goto (if s.strategy = .writerPriority then .setOpen false .writers else .notify .writers))
      else if s.waitingReaders ≠ 0 ∧ s.strategy = .writerPriority then (s.openReaderPhase, o.goto (.setOpen false .readers))
      else (s, o.goto (.setOpen true .nobody))

/-- The ticket of a writer that leaves is served. -/
def serveNext (s : RwLock T) : Bool × RwLock T :=
  if s.activeWriterHasTicket then
    if s.servingWriterTicket = ticketLimit then (false, s)
    else { s with servingWriterTicket := s.servingWriterTicket + 1 }.finishWriterQueue
  else (true, s)

/-- `pt_rwlock_strategy_wrunlock` with the mutex: the flag is cleared, the next ticket served, and a phase opened for the readers that
wait. -/
def releaseWrite (t : T) (s : RwLock T) (o : Own) : RwLock T × Own :=
  if s.activeWriterThread ≠ some t then s.unlockMutex o .idle
  else
    let r := { s with activeWriterThread := none, readerFastPathOpen := false }.serveNext
    let s := { r.2 with activeWriterHasTicket := false }
    if !r.1 then (s, o.goto .leave)
    else if s.strategy = .writerPriority ∧ s.waitingReaders ≠ 0 then (s.openReaderPhase, o.goto (.setOpen false .readers))
    else if s.waitingWriters ≠ 0 then
      (s, o.goto (if s.strategy = .readerPriority then .setOpen true .writers else .notify .writers))
    else (s, o.goto (.setOpen true .readers))

/-- Threads asleep on a condition wake up. -/
def broadcast (s : RwLock T) : Notify → RwLock T
  | .nobody => s
  | .readers => { s with readerCondition := ∅ }
  | .writers => { s with writerCondition := ∅ }

/-- A turn of a thread inside a call. -/
def go (t : T) (s : RwLock T) (o : Own) (ok : Bool) : RwLock T × Own :=
  match o.loc with
  | .idle => (s, o)
  | .rdOpen tryOnly =>
    if s.readerFastPathOpen then
      if ok then (s, ⟨.rdCount tryOnly, some true⟩) else (s, o.goto .idle)
    else (s, o.goto (.rdMutex tryOnly))
  | .rdCount tryOnly =>
    if ok then ({ s with fastActiveReaders := s.fastActiveReaders + 1 }, o.goto (.rdRecheck tryOnly)) else (s, o)
  | .rdRecheck tryOnly => if s.readerFastPathOpen then (s, o.goto .idle) else (s, ⟨.rdUncount tryOnly, none⟩)
  | .rdUncount tryOnly => ({ s with fastActiveReaders := s.fastActiveReaders - 1 }, o.goto (.wakeLoad (.readLock tryOnly)))
  | .wakeLoad k => if s.fastActiveReaders ≠ 0 then (s, o.goto k.loc) else (s, o.goto (.wakeMutex k))
  | .wakeMutex k => s.lockMutex t o false (.wakeReload k)
  | .wakeReload k =>
    if s.fastActiveReaders = 0 ∧ s.waitingWriters ≠ 0 then (s, o.goto (.wakeClose k)) else (s, o.goto (.wakeUnlock k))
  | .wakeClose k => ({ s with readerFastPathOpen := false }, o.goto (.wakeNotify k))
  | .wakeNotify k => (s.broadcast .writers, o.goto (.wakeUnlock k))
  | .wakeUnlock k => s.unlockMutex o k.loc
  | .rdMutex tryOnly => s.lockMutex t o tryOnly (.rdEnter tryOnly)
  | .rdEnter tryOnly =>
    if s.activeWriterThread = some t then s.unlockMutex o .idle
    else if s.stopsReaders then
      if tryOnly then s.unlockMutex o .idle
      else if s.nextReaderTicket = ticketLimit then (s, o.goto .rdWrap)
      else s.queueReader o
    else s.readLoop t o tryOnly none ok
  | .rdWrap =>
    if s.waitingReaders = 0 ∧ ¬s.hasActiveReaders ∧ ¬s.readerPhaseOpen then ({ s with nextReaderTicket := 0 }, o.goto .rdQueue)
    else s.unlockMutex o .idle
  | .rdQueue => s.queueReader o
  | .rdWait ticket =>
    if t ∈ s.readerCondition then
      if ok then (s, o) else ({ s with readerCondition := s.readerCondition.erase t }, o)
    else s.lockMutex t o false (if ok then .rdRetest ticket else .rdGiveUp true)
  | .rdRetest ticket => s.readLoop t o false ticket ok
  | .rdGiveUp waited =>
    { s with waitingReaders := if waited then s.waitingReaders - 1 else s.waitingReaders }.closeEmptyReaderPhase o
  | .rdRefresh => (s.refreshReaderFastPath, o.goto (if s.waitingWriters ≠ 0 then .notify .writers else .leave))
  | .wrMutex tryOnly => s.lockMutex t o tryOnly (.wrEnter tryOnly)
  | .wrEnter tryOnly =>
    if s.activeWriterThread = some t ∨ o.entry.isSome then s.unlockMutex o .idle
    else if tryOnly ∧ (s.activeWriterThread.isSome ∨ s.hasActiveReaders ∨ s.readerPhaseOpen ∨
        s.nextWriterTicket ≠ s.servingWriterTicket) then (s, o.goto .leave)
    else if s.nextWriterTicket = ticketLimit then (s, o.goto (.wrWrap tryOnly))
    else (s, o.goto (if tryOnly then .wrTryTake else .wrQueue))
  | .wrWrap tryOnly =>
    if s.servingWriterTicket = ticketLimit ∧ s.waitingWriters = 0 ∧ s.activeWriterThread = none ∧ ¬s.hasActiveReaders then
      (s.resetWriterTickets, o.goto (if tryOnly then .wrTryTake else .wrQueue))
    else (s, o.goto .leave)
  | .wrTryTake =>
    ({ s with readerFastPathOpen := false, activeWriterThread := some t, activeWriterHasTicket := false }, o.goto .leave)
  | .wrQueue =>
    if ok then
      ({ s with
          readerFastPathOpen := if s.strategy = .writerPriority then false else s.readerFastPathOpen
          nextWriterTicket := s.nextWriterTicket + 1
          waitingWriters := s.waitingWriters + 1 }, o.goto (.wrTest s.nextWriterTicket))
    else s.unlockMutex o .idle
  | .wrTest ticket => (s, o.goto (if s.writerWaits ticket then .wrSleep ticket else .wrTake ticket))
  | .wrSleep ticket =>
    if ok then { s with writerCondition := insert t s.writerCondition }.unlockMutex o (.wrWait ticket)
    else (s, o.goto (.wrGiveUp ticket))
  | .wrWait ticket =>
    if t ∈ s.writerCondition then
      if ok then (s, o) else ({ s with writerCondition := s.writerCondition.erase t }, o)
    else s.lockMutex t o false (if ok then .wrTest ticket else .wrGiveUp ticket)
  | .wrTake _ =>
    ({ s with
        waitingWriters := s.waitingWriters - 1
        readerFastPathOpen := false
        activeWriterThread := some t
        activeWriterHasTicket := true }, o.goto .leave)
  | .wrGiveUp ticket =>
    ({ s with waitingWriters := s.waitingWriters - 1 }.refreshReaderFastPath, o.goto (.wrCancel ticket))
  | .wrCancel ticket =>
    if ok then
      let r := s.cancelTicket ticket
      (if r.1 then r.2.broadcast .writers else r.2, o.goto .leave)
    else (s, o.goto .leave)
  | .ruLoad => if s.fastActiveReaders = 0 then (s, o.goto .idle) else (s, o.goto .ruSub)
  | .ruSub => ({ s with fastActiveReaders := s.fastActiveReaders - 1 }, o.goto (.wakeLoad .unlock))
  | .ruMutex => s.lockMutex t o false .ruEnter
  | .ruEnter => s.releaseRead o
  | .wuMutex => s.lockMutex t o false .wuEnter
  | .wuEnter => s.releaseWrite t o
  | .ulMutex => s.lockMutex t o false .ulEnter
  | .ulEnter => s.unlockMutex o (if s.activeWriterThread = some t then .wuMutex else .idle)
  | .setOpen flag n => ({ s with readerFastPathOpen := flag }, o.goto (if n = .nobody then .leave else .notify n))
  | .notify n => (s.broadcast n, o.goto .leave)
  | .leave => s.unlockMutex o .idle

/-- A turn of a thread. -/
def turn (t : T) (s : RwLock T) (o : Own) : Choice → RwLock T × Own
  | .call c => if o.loc = .idle then (s, o.begin c) else (s, o)
  | .go ok => s.go t o ok

/-- The lock and the threads that use it. -/
abbrev System (T : Type) := Threads T (RwLock T) Own

/-- A lock after `pt_rwlock_strategy_init`. -/
def initial (T : Type) (strategy : Strategy) : System T where
  shared := { strategy }
  own _ := {}

/-- One turn of a thread. -/
def step (c : System T) (i : T × Choice) : System T := Threads.step turn c i

theorem own_step (c : System T) (i : T × Choice) : (step c i).own i.1 = (turn i.1 c.shared (c.own i.1) i.2).2 := Threads.own_step_self

theorem own_step_other {c : System T} {i : T × Choice} {t : T} (h : t ≠ i.1) : (step c i).own t = c.own t := Threads.own_step_of_ne h

/-- A run, turn by turn. -/
def run (strategy : Strategy) (turns : List (T × Choice)) : System T := turns.foldl step (initial T strategy)

end RwLock

end Libft.PThread
