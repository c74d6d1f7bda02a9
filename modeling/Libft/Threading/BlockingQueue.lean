import Libft.Lib.Threads

/-!
# A queue that consumers wait for

`ft_blocking_queue` without its optional state mutex. The storage is behind a mutex, and a consumer that finds it empty waits for a
condition: it gives the mutex back and is asleep, in one turn, as a signal needs the condition's own mutex. A turn is one operation on
the mutex, the condition or the flag `running_flag`, or what is done to the storage in between. A thread that is asleep may wake up
without a signal. Locking and waiting do not fail.
-/

namespace Libft.Threading

/-- What the threads share. A waiter of the condition that a signal has chosen is none any more. -/
structure BlockingQueue (T α : Type) where
  mutex : Option T := none
  storage : List α := []
  waiters : Finset T := ∅
  shutdown : Bool := false
  running : Bool := true

/-- The next turn of a thread. -/
inductive QueueLoc (α : Type)
  /-- Outside of every call. -/
  | idle
  -- `push`
  | psLock (v : α)
  | psStore (v : α)
  | psSignal
  -- `wait_pop`, with whether the thread has been asleep in this call
  | wpLock
  | wpTest (slept : Bool)
  | wpWait
  | wpAsleep
  | take (slept : Bool)
  -- `pop` and `shutdown`
  | poLock
  | sdLock
  | sdSet
  -- the end of every call
  | unlock
  deriving DecidableEq, Repr

/-- A thread: where it is, and what its last `wait_pop` or `pop` has given it. -/
structure QueueOwn (α : Type) where
  loc : QueueLoc α := .idle
  result : Option α := none
  deriving DecidableEq, Repr

/-- The calls of a thread. -/
inductive QueueCall (α : Type)
  | push (v : α)
  | waitPop
  | pop
  | shutdown
  deriving DecidableEq, Repr

/-- What happens in a turn: a thread outside of every call makes one; a thread goes on, where a signal is for one of the waiters and
memory may run out; a thread asleep wakes up by itself; the flag of the caller is cleared. -/
inductive QueueChoice (T α : Type)
  | call (c : QueueCall α)
  | go (pick : T) (ok : Bool)
  | wake
  | stop
  deriving DecidableEq, Repr

namespace QueueOwn

variable {α : Type}

/-- Go on elsewhere. -/
def goto (o : QueueOwn α) (loc : QueueLoc α) : QueueOwn α := { o with loc }

/-- A call begins. -/
def begin (o : QueueOwn α) : QueueCall α → QueueOwn α
  | .push v => o.goto (.psLock v)
  | .waitPop => o.goto .wpLock
  | .pop => o.goto .poLock
  | .shutdown => o.goto .sdLock

end QueueOwn

namespace BlockingQueue

variable {T α : Type} [DecidableEq T]

/-- The mutex is taken when it is free. -/
def lock (t : T) (s : BlockingQueue T α) (o : QueueOwn α) (next : QueueLoc α) : BlockingQueue T α × QueueOwn α :=
  if s.mutex = none then ({ s with mutex := some t }, o.goto next) else (s, o)

/-- A turn of a thread inside a call. -/
def go (t : T) (s : BlockingQueue T α) (o : QueueOwn α) (pick : T) (ok : Bool) : BlockingQueue T α × QueueOwn α :=
  match o.loc with
  | .idle => (s, o)
  | .psLock v => s.lock t o (.psStore v)
  | .psStore v =>
    if ok then ({ s with storage := s.storage ++ [v] }, o.goto (if s.storage = [] then .psSignal else .unlock))
    else (s, o.goto .unlock)
  -- one of the waiters, if there are any
  | .psSignal =>
    if s.waiters = ∅ then (s, o.goto .unlock)
    else if pick ∈ s.waiters then ({ s with waiters := s.waiters.erase pick }, o.goto .unlock)
    else (s, o)
  | .wpLock => s.lock t o (.wpTest false)
  | .wpTest slept =>
    if s.storage ≠ [] then (s, o.goto (.take slept))
    else if !s.running || s.shutdown then (s, { o with result := none, loc := .unlock })
    else (s, o.goto .wpWait)
  | .wpWait => ({ s with mutex := none, waiters := insert t s.waiters }, o.goto .wpAsleep)
  | .wpAsleep => if t ∈ s.waiters then (s, o) else s.lock t o (.wpTest true)
  | .take _ => ({ s with storage := s.storage.tail }, { o with result := s.storage.head?, loc := .unlock })
  | .poLock => s.lock t o (.take false)
  | .sdLock => s.lock t o .sdSet
  | .sdSet => ({ s with shutdown := true, waiters := ∅ }, o.goto .unlock)
  | .unlock => ({ s with mutex := none }, o.goto .idle)

/-- A turn of a thread. -/
def turn (t : T) (s : BlockingQueue T α) (o : QueueOwn α) : QueueChoice T α → BlockingQueue T α × QueueOwn α
  | .call c =>
    match o.loc with
    | .idle => (s, o.begin c)
    | _ => (s, o)
  | .go pick ok => s.go t o pick ok
  | .wake =>
    match o.loc with
    | .wpAsleep => ({ s with waiters := s.waiters.erase t }, o)
    | _ => (s, o)
  | .stop => ({ s with running := false }, o)

/-- The queue and the threads that use it. -/
abbrev System (T α : Type) := Threads T (BlockingQueue T α) (QueueOwn α)

/-- An empty queue, with every thread outside. -/
def initial (T α : Type) : System T α where
  shared := {}
  own _ := {}

/-- One turn of a thread. -/
def step (c : System T α) (i : T × QueueChoice T α) : System T α := Threads.step turn c i

/-- A run, turn by turn. -/
def run (turns : List (T × QueueChoice T α)) : System T α := turns.foldl step (initial T α)

end BlockingQueue

end Libft.Threading
