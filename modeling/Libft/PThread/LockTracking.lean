import Libft.Lib.Threads

/-!
# Mutexes that are tracked

`pt_mutex` and `pt_lock_tracking`, for any threads and mutexes. A mutex is a native one with two atomic fields. Each thread lists its
mutexes for itself and, once it has waited for one, in a registry that all share; a thread that is about to wait follows the registry
from owner to owner to see whether they wait for a mutex of its own. A turn is one access to an atomic field, one operation on the
native mutex, or one call of the tracker, which has the registry's own mutex throughout. Memory may run out in the tracker where it
records something; to take something back it needs none. Threads do not exit.
-/

namespace Libft.PThread

open Function

/-- `s_pt_thread_lock_info`: the mutexes of a thread and the one it waits for, in the registry. -/
structure LockInfo (M : Type) where
  owned : List M := []
  waiting : Option M := none
  deriving DecidableEq, Repr

/-- What the threads share: of each mutex the native one with its holder and the fields `_lock` and `_owner`, and the registry with
`s_pt_thread_lock_info` for threads and `s_pt_mutex_owner_info` for mutexes. -/
structure Tracker (T M : Type) where
  native : M → Option T
  locked : M → Bool
  owner : M → Option T
  infos : T → Option (LockInfo M)
  owners : M → Option T

/-- The next turn of a thread. -/
inductive LockLoc (M : Type)
  /-- Outside of every call. -/
  | idle
  -- `lock` and `try_lock`: is the mutex our own
  | ckOwner (tryOnly : Bool) (m : M)
  | ckSelf (tryOnly : Bool) (m : M) (self : Bool)
  -- `lock`: the flag again, the native `try_lock`, `notify_wait` and the native `lock`
  | lkFlag (m : M)
  | lkTry (m : M)
  | lkWait (m : M)
  | lkBlock (m : M)
  -- `try_lock`: the native one, twice at most
  | tlTry (m : M) (again : Bool)
  -- with the native mutex: `_owner`, `_lock`, `notify_acquired`
  | stOwner (m : M)
  | stLock (m : M)
  | acquired (m : M)
  -- `unlock`
  | ulFlag (m : M)
  | ulOwner (m : M)
  | ulClearLock (m : M)
  | ulClearOwner (m : M)
  | ulNative (m : M)
  | released (m : M)
  deriving DecidableEq, Repr

/-- A thread: where it is, and `s_pt_local_lock_tracking_state`. Tracking is required for threads that the library started. -/
structure LockOwn (M : Type) where
  loc : LockLoc M := .idle
  owned : List M := []
  waiting : Option M := none
  published : Bool := false
  required : Bool := false
  deriving DecidableEq, Repr

/-- The calls of a thread. -/
inductive LockCall (M : Type)
  | lock (m : M)
  | tryLock (m : M)
  | unlock (m : M)
  deriving DecidableEq, Repr

/-- What there is no memory for in a call of the tracker. -/
inductive Shortage
  /-- The registry, or the entry of the thread in it. -/
  | entry
  /-- The list of the entry. -/
  | list
  /-- The record of an owner: if several are written, that of the mutex with this index. -/
  | record (index : ℕ)
  /-- What comes last: the search for a cycle, or the list that the thread has for itself. -/
  | last
  deriving DecidableEq, Repr

/-- What happens in a turn: a thread outside of every call makes one, or a thread goes on. With `false` a native `try_lock` fails though
the mutex is free, as it may. With a shortage the tracker fails. -/
inductive LockChoice (M : Type)
  | call (c : LockCall M)
  | go (ok : Bool)
  | short (shortage : Shortage)
  deriving DecidableEq, Repr

namespace LockOwn

variable {M : Type}

/-- Go on elsewhere. -/
def goto (o : LockOwn M) (loc : LockLoc M) : LockOwn M := { o with loc }

/-- A call begins. -/
def begin (o : LockOwn M) : LockCall M → LockOwn M
  | .lock m => o.goto (.ckOwner false m)
  | .tryLock m => o.goto (.ckOwner true m)
  | .unlock m => o.goto (.ulFlag m)

end LockOwn

/-- A mutex is put in a list of mutexes, once. -/
def pushOnce {M : Type} [DecidableEq M] (l : List M) (m : M) : List M := if m ∈ l then l else l ++ [m]

namespace Tracker

variable {T M : Type} [DecidableEq T] [DecidableEq M]

/-- `find_thread_info`, which makes an entry for a thread that has none. -/
def findThreadInfo (s : Tracker T M) (t : T) : LockInfo M := (s.infos t).getD {}

/-- Write the entry of a thread. -/
def setInfo (s : Tracker T M) (t : T) (info : LockInfo M) : Tracker T M := { s with infos := update s.infos t (some info) }

/-- `pt_lock_tracking_set_mutex_owner`. -/
def setMutexOwner (s : Tracker T M) (m : M) (t : T) : Tracker T M := { s with owners := update s.owners m (some t) }

/-- `pt_lock_tracking_clear_mutex_owner`: whoever the owner is. -/
def clearMutexOwner (s : Tracker T M) (m : M) : Tracker T M := { s with owners := update s.owners m none }

/-- `detect_cycle`: from the mutex to its owner, to the mutex it waits for, and on, until one is of the origin's mutexes. The threads
visited are new ones in each turn, so there are not more turns than threads, and one. -/
def detectCycle (s : Tracker T M) (origin : T) (owned : List M) : ℕ → M → List M → List T → Bool
  | 0, _, _, _ => false
  | fuel + 1, requested, visitedMutexes, visitedThreads =>
    if requested ∈ visitedMutexes then false
    else
      match s.owners requested with
      | none => false
      | some owner =>
        if owner = origin then false
        else
          match (s.infos owner).bind LockInfo.waiting with
          | none => false
          | some waiting =>
            if waiting ∈ owned then true
            else if owner ∈ visitedThreads then false
            else s.detectCycle origin owned fuel waiting (visitedMutexes ++ [requested]) (visitedThreads ++ [owner])

/-- `pt_lock_tracking_publish_local_state`, into the entry of the thread. -/
def publishLocalState (s : Tracker T M) (t : T) (o : LockOwn M) : Tracker T M :=
  o.owned.foldl (fun s m => s.setMutexOwner m t) (s.setInfo t { s.findThreadInfo t with owned := o.owned })

/-- The registry when a thread has published its mutexes and what it waits for. -/
def markWaiting (s : Tracker T M) (t : T) (o : LockOwn M) (m : M) : Tracker T M :=
  let s := s.publishLocalState t o
  s.setInfo t { s.findThreadInfo t with waiting := some m }

/-- `notify_acquired`. As long as a thread has not waited, and is not one of the library's, it keeps its list to itself. -/
def notifyAcquired (s : Tracker T M) (t : T) (o : LockOwn M) (m : M) : Tracker T M × LockOwn M :=
  if o.waiting = none ∧ o.published = false ∧ o.required = false then
    (s, { o with owned := pushOnce o.owned m, loc := .idle })
  else
    ((s.setInfo t { owned := pushOnce (s.findThreadInfo t).owned m }).setMutexOwner m t,
      { o with owned := pushOnce o.owned m, waiting := none, loc := .idle })

/-- `notify_wait` when memory runs out: `lock` returns then, whatever has been recorded. -/
def notifyWaitShort (s : Tracker T M) (t : T) (o : LockOwn M) (m : M) : Shortage → Tracker T M × LockOwn M
  | .entry => (s, o.goto .idle)
  | .list => (s.setInfo t (s.findThreadInfo t), o.goto .idle)
  | .record index =>
    if index < o.owned.length then
      ((o.owned.take index).foldl (fun s m => s.setMutexOwner m t) (s.setInfo t { s.findThreadInfo t with owned := o.owned }),
        o.goto .idle)
    else (s, o)
  | .last => (s.markWaiting t o m, { o with waiting := some m, published := true, loc := .idle })

/-- `notify_acquired` when memory runs out: the mutex is given back then, as in `unlock`. -/
def notifyAcquiredShort (s : Tracker T M) (t : T) (o : LockOwn M) (m : M) (shortage : Shortage) : Tracker T M × LockOwn M :=
  if o.waiting = none ∧ o.published = false ∧ o.required = false then (s, o.goto (.ulClearLock m))
  else
    let info := s.findThreadInfo t
    match shortage with
    | .entry => (s, o.goto (.ulClearLock m))
    | .list => (s.setInfo t info, o.goto (.ulClearLock m))
    | .record _ => (s.setInfo t { info with owned := pushOnce info.owned m }, o.goto (.ulClearLock m))
    | .last =>
      ((s.setInfo t { owned := pushOnce info.owned m }).setMutexOwner m t, { o with waiting := none, loc := .ulClearLock m })

/-- The list and the mark of a thread, when a mutex has been released. -/
def forget (o : LockOwn M) (m : M) : LockOwn M :=
  { o with owned := o.owned.erase m, waiting := if o.waiting = some m then none else o.waiting, loc := .idle }

/-- `notify_released`. A thread that has not published is done with its own list. -/
def notifyReleased (s : Tracker T M) (t : T) (o : LockOwn M) (m : M) : Tracker T M × LockOwn M :=
  let o := forget o m
  if o.published = false then (s, o)
  else
    let info := s.findThreadInfo t
    ((s.setInfo t { owned := info.owned.erase m, waiting := if info.waiting = some m then none else info.waiting }).clearMutexOwner m,
      { o with published := !(o.owned.isEmpty && o.waiting.isNone) })

variable [Fintype T]

/-- `notify_wait` on the registry: whether the wait would close a cycle. -/
def refuses (s : Tracker T M) (t : T) (o : LockOwn M) (m : M) : Bool :=
  (s.markWaiting t o m).detectCycle t o.owned (Fintype.card T + 1) m [] []

/-- `notify_wait`, and where `lock` goes on: it waits, or returns that the mutex is locked. -/
def notifyWait (s : Tracker T M) (t : T) (o : LockOwn M) (m : M) : Tracker T M × LockOwn M :=
  (s.markWaiting t o m,
    { o with waiting := some m, published := true, loc := if s.refuses t o m then .idle else .lkBlock m })

/-- A turn of a thread inside a call. -/
def go (t : T) (s : Tracker T M) (o : LockOwn M) (ok : Bool) : Tracker T M × LockOwn M :=
  match o.loc with
  | .idle => (s, o)
  | .ckOwner tryOnly m => (s, o.goto (.ckSelf tryOnly m (s.owner m = some t)))
  | .ckSelf tryOnly m self =>
    (s, o.goto (if s.locked m && self then .idle else if tryOnly then .tlTry m false else .lkFlag m))
  | .lkFlag m => (s, o.goto (if s.locked m then .lkWait m else .lkTry m))
  | .lkTry m =>
    if s.native m = none ∧ ok then ({ s with native := update s.native m (some t) }, o.goto (.stOwner m))
    else (s, o.goto (.lkWait m))
  | .lkWait m => s.notifyWait t o m
  | .lkBlock m =>
    if s.native m = none then ({ s with native := update s.native m (some t) }, o.goto (.stOwner m))
    else (s, o)
  | .tlTry m again =>
    if s.native m = none ∧ ok then ({ s with native := update s.native m (some t) }, o.goto (.stOwner m))
    else (s, o.goto (if again then .idle else .tlTry m true))
  | .stOwner m => ({ s with owner := update s.owner m (some t) }, o.goto (.stLock m))
  | .stLock m => ({ s with locked := update s.locked m true }, o.goto (.acquired m))
  | .acquired m => s.notifyAcquired t o m
  | .ulFlag m => (s, o.goto (if s.locked m then .ulOwner m else .idle))
  | .ulOwner m => (s, o.goto (if s.owner m = some t then .ulClearLock m else .idle))
  | .ulClearLock m => ({ s with locked := update s.locked m false }, o.goto (.ulClearOwner m))
  | .ulClearOwner m => ({ s with owner := update s.owner m none }, o.goto (.ulNative m))
  | .ulNative m => ({ s with native := update s.native m none }, o.goto (.released m))
  | .released m => s.notifyReleased t o m

/-- A turn of a thread. Only the tracker runs short of memory. -/
def turn (t : T) (s : Tracker T M) (o : LockOwn M) : LockChoice M → Tracker T M × LockOwn M
  | .call c => if o.loc = .idle then (s, o.begin c) else (s, o)
  | .go ok => s.go t o ok
  | .short shortage =>
    match o.loc with
    | .lkWait m => s.notifyWaitShort t o m shortage
    | .acquired m => s.notifyAcquiredShort t o m shortage
    | _ => (s, o)

/-- The tracker and the threads that use it. -/
abbrev System (T M : Type) := Threads T (Tracker T M) (LockOwn M)

/-- Mutexes that nobody holds, and threads that have not called anything; for some of them tracking is required. -/
def initial (M : Type) (required : T → Bool) : System T M where
  shared := ⟨fun _ => none, fun _ => false, fun _ => none, fun _ => none, fun _ => none⟩
  own t := { required := required t }

/-- One turn of a thread. -/
def step (c : System T M) (i : T × LockChoice M) : System T M := Threads.step turn c i

/-- A run, turn by turn. -/
def run (required : T → Bool) (turns : List (T × LockChoice M)) : System T M := turns.foldl step (initial M required)

/-- A call, and the turns in which the thread goes on in it. -/
def callTurns (t : T) (c : LockCall M) (n : ℕ) : List (T × LockChoice M) := (t, .call c) :: List.replicate n (t, .go true)

end Tracker

end Libft.PThread
