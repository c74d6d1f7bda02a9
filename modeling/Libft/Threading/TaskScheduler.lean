import Libft.Lib.Threads

/-!
# The task scheduler

`ft_task_scheduler` with its timer thread, its workers and the threads that call `schedule_after`, `schedule_every` and `cancel`. The
scheduled tasks are a heap by time behind a mutex, the tasks that are due go to a queue for the workers. A turn is one operation on the
mutex, one of the functions on the heap, one operation on the queue or on a flag, or the start of a task's function. The time that a
thread reads is any; a timer thread that waits may go on at any time. Locks and waits do not fail, memory may run out.

The unlocking of a mutex that another thread holds, or nobody, has no effect (`FT_ERR_MUTEX_NOT_OWNER`).
-/

namespace Libft.Threading

open Function

/-- `scheduled_task`, with the task's state by its identity, and whether there is a function. -/
structure ScheduledTask (K : Type) where
  state : K
  time : ℤ
  interval : ℤ := 0
  callable : Bool := true
  deriving DecidableEq, Repr

/-! ## The heap -/

namespace Heap

variable {K : Type}

/-- Two entries change places. -/
def swap (l : List (ScheduledTask K)) (i j : ℕ) : List (ScheduledTask K) :=
  match l[i]?, l[j]? with
  | some a, some b => (l.set i b).set j a
  | _, _ => l

/-- The entry at the first index is due before the one at the second. -/
def before (l : List (ScheduledTask K)) (i j : ℕ) : Bool :=
  match l[i]?, l[j]? with
  | some a, some b => a.time < b.time
  | _, _ => false

/-- `scheduled_heap_sift_up`. There are not more turns than the index. -/
def siftUp : ℕ → List (ScheduledTask K) → ℕ → List (ScheduledTask K)
  | 0, l, _ => l
  | fuel + 1, l, index =>
    if index = 0 then l
    else if before l index ((index - 1) / 2) then siftUp fuel (swap l index ((index - 1) / 2)) ((index - 1) / 2)
    else l

/-- The child that is due first. -/
def smallest (l : List (ScheduledTask K)) (index : ℕ) : ℕ :=
  if before l (index * 2 + 2) (index * 2 + 1) then index * 2 + 2 else index * 2 + 1

/-- `scheduled_heap_sift_down`. There are not more turns than entries. -/
def siftDown : ℕ → List (ScheduledTask K) → ℕ → List (ScheduledTask K)
  | 0, l, _ => l
  | fuel + 1, l, index =>
    if l.length ≤ index * 2 + 1 then l
    else if before l (smallest l index) index then siftDown fuel (swap l index (smallest l index)) (smallest l index)
    else l

/-- `scheduled_heap_push`. -/
def push (l : List (ScheduledTask K)) (task : ScheduledTask K) : List (ScheduledTask K) :=
  siftUp l.length (l ++ [task]) l.length

/-- `scheduled_heap_pop`: the last entry goes to the place of the first. -/
def pop : List (ScheduledTask K) → Option (ScheduledTask K × List (ScheduledTask K))
  | [] => none
  | task :: rest =>
    match rest.getLast? with
    | none => some (task, [])
    | some last => some (task, siftDown rest.length (last :: rest.dropLast) 0)

/-- `scheduled_remove_index`, of an entry that is there: the last entry goes to its place. -/
def removeIndex (l : List (ScheduledTask K)) (index : ℕ) : List (ScheduledTask K) :=
  if index + 1 = l.length then l.dropLast
  else
    match l.getLast? with
    | none => l
    | some last => siftUp index (siftDown l.length (l.dropLast.set index last) index) index

end Heap

/-! ## The threads -/

/-- What the threads share: the mutex of the scheduled tasks and their heap, the flags, and the queue for the workers. For what is said
about runs, `used` and `issued` have the tasks made and those whose handle has been returned, and `starts` counts the executions. -/
structure Scheduler (T K : Type) where
  mutex : Option T := none
  heap : List (ScheduledTask K) := []
  running : Bool := true
  cancelled : K → Bool := fun _ => false
  queue : List K := []
  used : K → Bool := fun _ => false
  issued : K → Bool := fun _ => false
  starts : K → ℕ := fun _ => 0

/-- The next turn of a thread. -/
inductive SchedLoc (K : Type)
  /-- A caller outside of every call, and a thread that has returned. -/
  | idle
  | done
  -- `timer_loop`, the first inner loop: the flag, the heap, the two waits
  | tStart
  | tLock
  | tHead
  | tSize
  | tWait (timed : Bool)
  | tAsleep (timed : Bool)
  -- the second inner loop: the heap, its first entry, and the entry in the timer's hand
  | tDrain
  | tPop
  | tCheck (e : ScheduledTask K)
  | tUnlock (e : ScheduledTask K) (direct : Bool)
  | tPush (e : ScheduledTask K)
  | tDirect (e : ScheduledTask K)
  | tRunning (e : ScheduledTask K)
  | tRelock (e : ScheduledTask K)
  | tAgain (e : ScheduledTask K)
  | tRepush (e : ScheduledTask K)
  | tReUnlock
  -- the end of the loop, and the return with an error
  | tEnd
  | tQuit
  -- `schedule_after` and `schedule_every`
  | cLock (e : ScheduledTask K) (once : Bool)
  | cPush (e : ScheduledTask K) (once : Bool)
  | cUnlock (k : K) (direct : Bool)
  | cDirect (k : K)
  -- `cancel_task_state`
  | xFlag (k : K)
  | xLock (k : K)
  | xScan (k : K)
  | xUnlock (k : K)
  -- `worker_loop`
  | wTop
  | wPop
  | wRun (k : K)
  deriving DecidableEq, Repr

/-- A thread: where it is, and the task for which its last call of `cancel` has returned true. -/
structure SchedOwn (K : Type) where
  loc : SchedLoc K := .idle
  result : Option K := none
  deriving DecidableEq, Repr

/-- A call. A task is made with a state that no task has had. -/
inductive SchedCall (K : Type)
  | after (k : K) (delay : ℤ)
  | every (k : K) (interval : ℤ)
  | cancel (k : K)
  deriving DecidableEq, Repr

/-- What happens in a turn, at the time that is read in it: a caller makes a call, or a thread goes on; with `false` memory runs out, or
a wait ends by its time. `destroy` clears the flag. -/
inductive SchedChoice (K : Type)
  | call (c : SchedCall K) (now : ℤ)
  | go (now : ℤ) (ok : Bool)
  | stop
  deriving DecidableEq, Repr

namespace SchedOwn

variable {K : Type}

/-- Go on elsewhere. -/
def goto (o : SchedOwn K) (loc : SchedLoc K) : SchedOwn K := { o with loc }

end SchedOwn

namespace Scheduler

variable {T K : Type} [DecidableEq T]

/-- The mutex is taken when it is free. -/
def lock (t : T) (s : Scheduler T K) (o : SchedOwn K) (next : SchedLoc K) : Scheduler T K × SchedOwn K :=
  if s.mutex = none then ({ s with mutex := some t }, o.goto next) else (s, o)

/-- The mutex is given back by its holder. -/
def release (t : T) (s : Scheduler T K) : Scheduler T K := { s with mutex := if s.mutex = some t then none else s.mutex }

variable [DecidableEq K]

/-- The function of a task is called. -/
def start (s : Scheduler T K) (k : K) : Scheduler T K := { s with starts := update s.starts k (s.starts k + 1) }

/-- The first entry of a task in the heap. -/
def findState (s : Scheduler T K) (k : K) : ℕ := s.heap.findIdx fun e => e.state = k

/-- The loop of `cancel_task_state`. -/
def scan (s : Scheduler T K) (k : K) : Scheduler T K :=
  if s.findState k < s.heap.length then { s with heap := Heap.removeIndex s.heap (s.findState k) } else s

/-- A caller outside of every call makes one. A handle is needed for `cancel`. -/
def begin (s : Scheduler T K) (o : SchedOwn K) (now : ℤ) : SchedCall K → Scheduler T K × SchedOwn K
  | .after k delay =>
    if s.used k then (s, o)
    else ({ s with used := update s.used k true }, ⟨.cLock { state := k, time := now + delay } true, none⟩)
  | .every k interval =>
    if s.used k then (s, o)
    else
      ({ s with used := update s.used k true },
        ⟨.cLock { state := k, time := now + interval, interval } false, none⟩)
  | .cancel k => if s.issued k then (s, ⟨.xFlag k, none⟩) else (s, o)

/-- A turn of a thread that goes on. -/
def go (t : T) (s : Scheduler T K) (o : SchedOwn K) (now : ℤ) (ok : Bool) : Scheduler T K × SchedOwn K :=
  match o.loc with
  | .idle | .done => (s, o)
  | .tStart => (s, o.goto (if s.running then .tLock else .done))
  | .tLock => s.lock t o .tHead
  | .tHead => (s, o.goto (if s.running then .tSize else .tQuit))
  | .tSize =>
    match s.heap with
    | [] => (s, o.goto (.tWait false))
    | e :: _ => (s, o.goto (if 0 < e.time - now then .tWait true else .tDrain))
  | .tWait timed => (s.release t, o.goto (.tAsleep timed))
  | .tAsleep timed => s.lock t o (if timed && !ok then .tDrain else .tHead)
  | .tDrain =>
    match s.heap with
    | [] => (s, o.goto .tEnd)
    | e :: _ => (s, o.goto (if now < e.time then .tEnd else .tPop))
  | .tPop =>
    match Heap.pop s.heap with
    | none => (s, o.goto .tQuit)
    | some (e, heap) => ({ s with heap }, o.goto (.tCheck e))
  -- the function is copied for the queue, or called here
  | .tCheck e => (s, o.goto (if s.cancelled e.state then .tDrain else .tUnlock e (!(e.callable && ok))))
  | .tUnlock e direct => (s.release t, o.goto (if direct then .tDirect e else .tPush e))
  | .tPush e => (if ok then { s with queue := s.queue ++ [e.state] } else s.start e.state, o.goto (.tRunning e))
  | .tDirect e => (if e.callable then s.start e.state else s, o.goto (.tRunning e))
  -- to the top of the loop, without the mutex, if the task is not to be repeated
  | .tRunning e => (s, o.goto (if !s.running then .done else if 0 < e.interval then .tRelock e else .tDrain))
  | .tRelock e => s.lock t o (.tAgain e)
  | .tAgain e => (s, o.goto (if s.cancelled e.state then .tReUnlock else .tRepush e))
  | .tRepush e => (if ok then { s with heap := Heap.push s.heap { e with time := now + e.interval } } else s, o.goto .tReUnlock)
  | .tReUnlock => (s.release t, o.goto .tDrain)
  | .tEnd => (s.release t, o.goto .tStart)
  | .tQuit => (s.release t, o.goto .done)
  | .cLock e once => s.lock t o (.cPush e once)
  -- without memory for the entry `schedule_after` calls the function itself
  | .cPush e once =>
    if ok then ({ s with heap := Heap.push s.heap e }, o.goto (.cUnlock e.state false)) else (s, o.goto (.cUnlock e.state once))
  | .cUnlock k direct =>
    if direct then (s.release t, o.goto (.cDirect k))
    else ({ s.release t with issued := update s.issued k true }, o.goto .idle)
  | .cDirect k => ({ s.start k with issued := update s.issued k true }, o.goto .idle)
  | .xFlag k => ({ s with cancelled := update s.cancelled k true }, o.goto (.xLock k))
  | .xLock k => s.lock t o (.xScan k)
  | .xScan k => (s.scan k, o.goto (.xUnlock k))
  | .xUnlock k => (s.release t, ⟨.idle, some k⟩)
  | .wTop => (s, o.goto (if s.running then .wPop else .done))
  | .wPop =>
    match s.queue with
    | [] => (s, o.goto (if s.running then .wPop else .done))
    | k :: rest => ({ s with queue := rest }, o.goto (.wRun k))
  | .wRun k => (s.start k, o.goto .wTop)

/-- A turn of a thread. -/
def turn (t : T) (s : Scheduler T K) (o : SchedOwn K) : SchedChoice K → Scheduler T K × SchedOwn K
  | .call c now => if o.loc = .idle then s.begin o now c else (s, o)
  | .go now ok => s.go t o now ok
  | .stop => ({ s with running := false }, o)

/-- The scheduler and its threads. -/
abbrev System (T K : Type) := Threads T (Scheduler T K) (SchedOwn K)

/-- A scheduler that has been started: the timer thread, the workers, and callers. -/
def initial (K : Type) (timer : T) (worker : T → Bool) : System T K where
  shared := {}
  own t := { loc := if t = timer then .tStart else if worker t then .wTop else .idle }

/-- One turn of a thread. -/
def step (c : System T K) (i : T × SchedChoice K) : System T K := Threads.step turn c i

/-- A run, turn by turn. -/
def run (timer : T) (worker : T → Bool) (turns : List (T × SchedChoice K)) : System T K := turns.foldl step (initial K timer worker)

end Scheduler

end Libft.Threading
