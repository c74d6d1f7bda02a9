import Libft.Lib.Endless
import Libft.Lib.Threads

/-!
# A pool of worker threads

`ft_thread_pool`: its workers, and `submit`, `wait` and `destroy`. The queue, the flag `stop` and the counter `active` are behind the
work mutex; with thread safety enabled, `submit` and `wait` hold a second mutex from their beginning to their end. A turn is one
operation on a mutex or what is done under it in between. A worker that runs a task is in the task's function, which may call `submit`
itself, any number of times, until it returns. Locking does not fail, but memory may: `submit` first makes a wrapper for the function and
then adds a node to the queue.

Tasks are numbered in the order in which they are accepted. The numbers, how often a task has been started and finished, and the number
of tasks that were accepted before a `wait` are kept for the statements only.
-/

namespace Libft.Threading

/-- A wrapper in the queue: the number of its task, and whether there was memory for the function. An empty wrapper can be called: it
does nothing. -/
structure PoolTask where
  number : ℕ
  stored : Bool
  deriving DecidableEq, Repr

/-- What the threads share. The work mutex is gone once the pool is `destroyed`. -/
structure ThreadPool (T : Type) where
  workMutex : Option T := none
  threadSafeMutex : Option T := none
  tasks : List PoolTask := []
  maxTasks : ℕ
  stop : Bool := false
  active : ℕ := 0
  threadSafe : Bool
  /-- The workers that have not returned. -/
  alive : ℕ
  destroying : Bool := false
  destroyed : Bool := false
  accepted : ℕ := 0
  started : ℕ → ℕ := fun _ => 0
  finished : ℕ → ℕ := fun _ => 0

/-- The next turn of a thread. In a `submit`, the task that makes the call, if one does. -/
inductive PoolLoc
  /-- Outside of every call. -/
  | idle
  /-- A worker that has returned. -/
  | done
  -- `worker`
  | wLock
  | wTest
  | wQuit
  | wSleep
  | wTaken (e : PoolTask)
  | wCall (e : PoolTask)
  | wRun (k : ℕ)
  | wRelock
  | wDone
  | wUnlock
  -- `submit`
  | sLock (within : Option ℕ)
  | sWork (within : Option ℕ)
  | sTest (within : Option ℕ)
  | sUnlock (within : Option ℕ)
  | sEnd (within : Option ℕ)
  -- `wait`
  | waLock
  | waWork
  | waTest
  | waUnlock (finished : Bool)
  | waEnd
  -- `destroy`
  | dLock
  | dStop
  | dUnlock
  | dJoin
  | dClean
  deriving DecidableEq, Repr

/-- What `submit` sets as the error. -/
inductive SubmitError
  | success
  | invalidState
  | full
  | noMemory
  deriving DecidableEq, Repr

/-- A thread: where it is, the error of its last `submit`, and how many tasks were accepted before its last `wait`. -/
structure PoolOwn where
  loc : PoolLoc := .idle
  error : SubmitError := .success
  before : ℕ := 0
  deriving DecidableEq, Repr

/-- The calls from outside. -/
inductive PoolCall
  | submit
  | wait
  | destroy
  deriving DecidableEq, Repr

/-- What happens in a turn: a thread outside of every call makes one; a task that runs calls `submit`, or returns; a thread goes on, with
or without memory for a wrapper and for a node. -/
inductive PoolChoice
  | call (c : PoolCall)
  | submits
  | returns
  | go (stores adds : Bool)
  deriving DecidableEq, Repr

/-- Go on elsewhere. -/
def PoolOwn.goto (o : PoolOwn) (loc : PoolLoc) : PoolOwn := { o with loc }

namespace ThreadPool

/-- Counts one more. -/
def bump (f : ℕ → ℕ) (k : ℕ) : ℕ → ℕ := Function.update f k (f k + 1)

/-- The part of `submit` under the work mutex. The wrapper is not looked at: without memory for the function, an empty one is queued. -/
def enqueue {T : Type} (s : ThreadPool T) (stores adds : Bool) : ThreadPool T × SubmitError :=
  if s.stop = true then (s, .invalidState)
  else if s.maxTasks ≠ 0 ∧ s.maxTasks ≤ s.tasks.length then (s, .full)
  else if adds = true then
    ({ s with tasks := s.tasks ++ [⟨s.accepted, stores⟩], accepted := s.accepted + 1 }, .success)
  else (s, .noMemory)

variable {T : Type} [DecidableEq T] (t : T) (s : ThreadPool T) (o : PoolOwn)

/-- `pt_recursive_mutex_lock_if_not_null`: a thread that does not get the mutex is where it was, one that finds none goes on. -/
def lockWork (l : PoolLoc) : ThreadPool T × PoolOwn :=
  if s.destroyed = true then (s, o.goto l)
  else match s.workMutex with
    | none => ({ s with workMutex := some t }, o.goto l)
    | some _ => (s, o)

def unlockWork : ThreadPool T := if s.workMutex = some t then { s with workMutex := none } else s

/-- `lock_internal` -/
def lockInternal (l : PoolLoc) : ThreadPool T × PoolOwn :=
  if s.threadSafe = true then
    match s.threadSafeMutex with
    | none => ({ s with threadSafeMutex := some t }, o.goto l)
    | some _ => (s, o)
  else (s, o.goto l)

def unlockInternal : ThreadPool T := if s.threadSafeMutex = some t then { s with threadSafeMutex := none } else s

/-- A call begins. A pool that is destroyed aborts the program, and it is destroyed once. -/
def begin : PoolCall → ThreadPool T × PoolOwn
  | .submit => if s.destroyed = true then (s, o) else (s, o.goto (.sLock none))
  | .wait => if s.destroyed = true then (s, o) else (s, { o with loc := .waLock, before := s.accepted })
  | .destroy => if s.destroying = true then (s, o) else ({ s with destroying := true }, o.goto .dLock)

/-- A thread goes on. A `wait` that finds the queue destroyed aborts the program: its thread does not come on. -/
def go (stores adds : Bool) : ThreadPool T × PoolOwn :=
  match o.loc with
  | .idle | .done | .wRun _ => (s, o)
  | .wLock => s.lockWork t o .wTest
  | .wTest =>
    match s.tasks with
    | [] => if s.stop = true then (s, o.goto .wQuit) else (s, o.goto .wSleep)
    | e :: rest => ({ s with tasks := rest, active := s.active + 1 }, o.goto (.wTaken e))
  | .wQuit => ({ s.unlockWork t with alive := s.alive - 1 }, o.goto .done)
  | .wSleep => (s.unlockWork t, o.goto .wLock)
  | .wTaken e => (s.unlockWork t, o.goto (.wCall e))
  | .wCall e =>
    if e.stored = true then ({ s with started := bump s.started e.number }, o.goto (.wRun e.number)) else (s, o.goto .wRelock)
  | .wRelock => s.lockWork t o .wDone
  | .wDone => ({ s with active := s.active - 1 }, o.goto .wUnlock)
  | .wUnlock => (s.unlockWork t, o.goto .wLock)
  | .sLock within => s.lockInternal t o (.sWork within)
  | .sWork within => s.lockWork t o (.sTest within)
  | .sTest within => ((s.enqueue stores adds).1, { o with loc := .sUnlock within, error := (s.enqueue stores adds).2 })
  | .sUnlock within => (s.unlockWork t, o.goto (.sEnd within))
  | .sEnd none => (s.unlockInternal t, o.goto .idle)
  | .sEnd (some k) => (s.unlockInternal t, o.goto (.wRun k))
  | .waLock => s.lockInternal t o .waWork
  | .waWork => s.lockWork t o .waTest
  | .waTest => if s.destroyed = true then (s, o) else (s, o.goto (.waUnlock (s.tasks.isEmpty && s.active == 0)))
  | .waUnlock true => (s.unlockWork t, o.goto .waEnd)
  | .waUnlock false => (s.unlockWork t, o.goto .waWork)
  | .waEnd => (s.unlockInternal t, o.goto .idle)
  | .dLock => s.lockWork t o .dStop
  | .dStop => ({ s with stop := true }, o.goto .dUnlock)
  | .dUnlock => (s.unlockWork t, o.goto .dJoin)
  | .dJoin => if s.alive = 0 then (s, o.goto .dClean) else (s, o)
  | .dClean => ({ s with tasks := [], destroyed := true }, o.goto .idle)

/-- A turn of a thread. -/
def turn : PoolChoice → ThreadPool T × PoolOwn
  | .call c => if o.loc = .idle then s.begin o c else (s, o)
  | .submits =>
    match o.loc with
    | .wRun k => (s, o.goto (.sLock (some k)))
    | _ => (s, o)
  | .returns =>
    match o.loc with
    | .wRun k => ({ s with finished := bump s.finished k }, o.goto .wRelock)
    | _ => (s, o)
  | .go stores adds => s.go t o stores adds

/-- The pool and its threads. -/
abbrev System (T : Type) := Threads T (ThreadPool T) PoolOwn

/-- A turn of one of the threads. -/
def step (c : System T) (i : T × PoolChoice) : System T := c.step (fun t s o ch => s.turn t o ch) i

/-- A pool with its workers at the beginning of their loops, and any other threads. -/
def initial [Fintype T] (worker : T → Bool) (maxTasks : ℕ) (threadSafe : Bool) : System T where
  shared := { maxTasks, threadSafe, alive := Threads.tally worker id }
  own t := if worker t = true then { loc := .wLock } else {}

end ThreadPool

end Libft.Threading
