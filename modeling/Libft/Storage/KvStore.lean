import Libft.Lib.AssocList
import Libft.Lib.Bytes

/-!
# The key-value store

The calls of `storage_kv_store_operations.cpp` that read and change the data of a `kv_store`, and the replication sinks they notify.
A string is the list of its bytes, a null pointer is `none`. What the clock reads, whether a container gets memory and what a sink
answers is part of a call; a string that gets no memory aborts the process, and no call is interrupted, so mutexes are left out. The
durations of a prune, which nothing but the metrics call reads, are left out too.
-/

namespace Libft.Storage

/-- The result codes of the store. -/
inductive KvError where
  | success | invalidOperation | noMemory
  deriving DecidableEq, Repr

/-- `kv_store_entry`: a value, and the time it expires at if it does. -/
structure KvEntry where
  value : Bytes
  expiration : Option Int64 := none
  deriving DecidableEq, Repr

/-- `_data`: the entries by key, in the order of insertion. -/
abbrev KvData : Type := AList fun _ : Bytes => KvEntry

/-- `kv_store_operation_type`. -/
inductive KvOperationType where
  | set | delete
  deriving DecidableEq, Repr

/-- `kv_store_operation`. -/
structure KvOperation where
  type : KvOperationType
  key : Bytes
  value : Bytes := []
  hasValue : Bool := false
  hasTtl : Bool := false
  ttlSeconds : Int64 := -1
  deriving DecidableEq, Repr

/-- `kv_store_snapshot_entry`. -/
structure KvSnapshotEntry where
  key : Bytes
  value : Bytes
  expiration : Option Int64 := none
  deriving DecidableEq, Repr

/-- `kv_store_metrics`, without the durations and what `kv_get` counts. -/
structure KvMetrics where
  setOperations : Int64 := 0
  deleteOperations : Int64 := 0
  pruneOperations : Int64 := 0
  prunedEntries : Int64 := 0
  deriving DecidableEq, Repr

/-- `kv_store_replication_sink`: whether it has an operations callback, and the batches the callback was given. -/
structure KvSink where
  hasOperations : Bool := true
  given : List (List KvOperation) := []
  deriving DecidableEq, Repr

/-- `kv_store`. -/
structure KvStore where
  data : KvData := ∅
  metrics : KvMetrics := {}
  sinks : List KvSink := []
  deriving DecidableEq

/-- What a call meets: the memory of its containers, the readings of the clock, and the answers of the sinks by their index. -/
structure KvEnv where
  starts : Bool := true
  pruneClock : Int64
  copies : Bool := true
  clock : Nat → Int64
  inserts : Nat → Bool := fun _ => true
  listens : Bool := true
  accepts : Nat → Bool := fun _ => true

/-- `LLONG_MAX`. -/
def llongMax : Int64 := 0x7fffffffffffffff

/-- `compute_expiration`: the time at which something expires, or `none` if the clock fails. -/
def computeExpiration (ttlSeconds now : Int64) : Option (Option Int64) :=
  if ttlSeconds < 0 then some none
  else if now < 0 then none
  else if llongMax - now < ttlSeconds then some (some llongMax)
  else some (some (now + ttlSeconds))

/-- An entry whose time has come. -/
def KvEntry.expired (now : Int64) (e : KvEntry) : Bool :=
  match e.expiration with
  | none => false
  | some timestamp => timestamp ≤ now

/-- `record_set_operation`. -/
def KvMetrics.recordSet (m : KvMetrics) : KvMetrics := { m with setOperations := m.setOperations + 1 }

/-- `record_delete_operation`. -/
def KvMetrics.recordDelete (m : KvMetrics) : KvMetrics := { m with deleteOperations := m.deleteOperations + 1 }

/-- `record_prune_metrics`. -/
def KvMetrics.recordPrune (m : KvMetrics) (removed : Nat) : KvMetrics :=
  { m with pruneOperations := m.pruneOperations + 1, prunedEntries := m.prunedEntries + .ofNat removed }

/-- `kv_store_init_set_operation`. -/
def setOperation (key value : Bytes) (ttlSeconds : Int64) : KvOperation where
  type := .set
  key := cString key
  value := cString value
  hasValue := true
  hasTtl := 0 ≤ ttlSeconds
  ttlSeconds := if 0 ≤ ttlSeconds then ttlSeconds else -1

/-- `kv_store_init_delete_operation`. -/
def deleteOperation (key : Bytes) : KvOperation where
  type := .delete
  key := cString key

namespace KvStore

/-- `prune_expired_locked`. -/
def pruneExpiredLocked (s : KvStore) (now : Int64) : KvStore × KvError :=
  if s.data.entries = [] then (s, .success)
  else if now < 0 then (s, .invalidOperation)
  else
    ({ s with
       data := s.data.restrict fun _ e => !e.expired now
       metrics := s.metrics.recordPrune (s.data.entries.countP fun e => e.2.expired now) }, .success)

/-- `prune_expired`. -/
def pruneExpired (s : KvStore) (now : Int64) : KvStore × KvError := s.pruneExpiredLocked now

/-- The loop of `notify_replication_listeners` over the sinks, from an index on: it stops at the first callback that fails. -/
def notifySinks (operations : List KvOperation) (accepts : Nat → Bool) : Nat → List KvSink → List KvSink × KvError
  | _, [] => ([], .success)
  | index, sink :: rest =>
    if !sink.hasOperations then
      (sink :: (notifySinks operations accepts (index + 1) rest).1, (notifySinks operations accepts (index + 1) rest).2)
    else if !accepts index then ({ sink with given := sink.given ++ [operations] } :: rest, .invalidOperation)
    else
      ({ sink with given := sink.given ++ [operations] } :: (notifySinks operations accepts (index + 1) rest).1,
        (notifySinks operations accepts (index + 1) rest).2)

/-- `notify_replication_listeners`, which copies the sinks first. -/
def notifyReplicationListeners (s : KvStore) (operations : List KvOperation) (e : KvEnv) : KvStore × KvError :=
  if operations = [] then (s, .success)
  else if !e.listens then (s, .noMemory)
  else
    ({ s with sinks := (notifySinks operations e.accepts 0 s.sinks).1 }, (notifySinks operations e.accepts 0 s.sinks).2)

/-- What `kv_apply` does when an operation fails: the data and two of the metrics are set back to what they were. -/
def rollback (s before : KvStore) : KvStore :=
  { s with
    data := before.data
    metrics := { s.metrics with
      setOperations := before.metrics.setOperations, deleteOperations := before.metrics.deleteOperations } }

/-- What `kv_apply` does with a set operation whose key is there: the value first, then the expiration if the operation has a
time to live. -/
def applySetExisting (s before : KvStore) (operation : KvOperation) (entry : KvEntry) (now : Int64) : KvStore × KvError :=
  let s := { s with data := s.data.put operation.key { entry with value := operation.value } }
  if operation.hasTtl then
    match computeExpiration operation.ttlSeconds now with
    | none => (s.rollback before, .invalidOperation)
    | some expiration =>
      ({ s with
         data := s.data.put operation.key { value := operation.value, expiration }
         metrics := s.metrics.recordSet }, .success)
  else ({ s with metrics := s.metrics.recordSet }, .success)

/-- What `kv_apply` does with a set operation whose key is new. -/
def applySetNew (s before : KvStore) (operation : KvOperation) (now : Int64) (memory : Bool) : KvStore × KvError :=
  match if operation.hasTtl then computeExpiration operation.ttlSeconds now else some none with
  | none => (s.rollback before, .invalidOperation)
  | some expiration =>
    if !memory then (s.rollback before, .invalidOperation)
    else
      ({ s with
         data := s.data.put operation.key { value := operation.value, expiration }
         metrics := s.metrics.recordSet }, .success)

/-- A turn of the loop of `kv_apply`. -/
def applyOperation (s before : KvStore) (operation : KvOperation) (now : Int64) (memory : Bool) : KvStore × KvError :=
  if operation.key = [] then (s.rollback before, .invalidOperation)
  else if operation.type = .delete then
    if operation.key ∈ s.data then
      ({ s with data := s.data.erase operation.key, metrics := s.metrics.recordDelete }, .success)
    else (s.rollback before, .invalidOperation)
  else if !operation.hasValue then (s.rollback before, .invalidOperation)
  else
    match s.data.lookup operation.key with
    | some entry => s.applySetExisting before operation entry now
    | none => s.applySetNew before operation now memory

/-- The loop of `kv_apply`, from an index on. -/
def applyOperations (before : KvStore) (e : KvEnv) : Nat → List KvOperation → KvStore → KvStore × KvError
  | _, [], s => (s, .success)
  | index, operation :: rest, s =>
    match s.applyOperation before operation (e.clock index) (e.inserts index) with
    | (s', .success) => applyOperations before e (index + 1) rest s'
    | (s', error) => (s', error)

/-- `kv_apply`. -/
def kvApply (s : KvStore) (operations : List KvOperation) (e : KvEnv) : KvStore × KvError :=
  if !e.starts then (s, .invalidOperation)
  else
    match s.pruneExpiredLocked e.pruneClock with
    | (s, .success) =>
      if !e.copies then (s, .invalidOperation)
      else
        match applyOperations s e 0 operations s with
        | (s, .success) => if operations = [] then (s, .success) else s.notifyReplicationListeners operations e
        | (s, error) => (s, error)
    | (s, _) => (s, .invalidOperation)

/-- `kv_set`. -/
def kvSet (s : KvStore) (key value : Option Bytes) (ttlSeconds : Int64) (e : KvEnv) : KvStore × KvError :=
  match key, value with
  | some key, some value => s.kvApply [setOperation key value ttlSeconds] e
  | _, _ => (s, .invalidOperation)

/-- `kv_delete`. It looks for the key before anything is pruned. -/
def kvDelete (s : KvStore) (key : Option Bytes) (e : KvEnv) : KvStore × KvError :=
  match key with
  | none => (s, .invalidOperation)
  | some key => if cString key ∈ s.data then s.kvApply [deleteOperation key] e else (s, .success)

/-- What `kv_compare_and_swap` does with a key that has the expected value. A new value takes its place before its expiration is
known, and without a time to live the old expiration goes. No sink is notified. -/
def swap (s : KvStore) (key : Bytes) (entry : KvEntry) (newValue : Option Bytes) (ttlSeconds now : Int64) : KvStore × KvError :=
  match newValue with
  | none => ({ s with data := s.data.erase key, metrics := s.metrics.recordDelete }, .success)
  | some newValue =>
    let s := { s with data := s.data.put key { entry with value := cString newValue } }
    match if 0 ≤ ttlSeconds then computeExpiration ttlSeconds now else some none with
    | none => (s, .invalidOperation)
    | some expiration =>
      ({ s with data := s.data.put key { value := cString newValue, expiration }, metrics := s.metrics.recordSet }, .success)

/-- `kv_compare_and_swap`. -/
def kvCompareAndSwap (s : KvStore) (key expectedValue newValue : Option Bytes) (ttlSeconds : Int64) (e : KvEnv) :
    KvStore × KvError :=
  match key, expectedValue with
  | some key, some expectedValue =>
    match s.pruneExpiredLocked e.pruneClock with
    | (s, .success) =>
      match s.data.lookup (cString key) with
      | none => (s, .invalidOperation)
      | some entry =>
        if cString entry.value ≠ cString expectedValue then (s, .invalidOperation)
        else s.swap (cString key) entry newValue ttlSeconds (e.clock 0)
    | (s, _) => (s, .invalidOperation)
  | _, _ => (s, .invalidOperation)

/-- The loop of `apply_snapshot_locked`, from an index on. An entry with a new key that gets no memory is passed over. -/
def insertEntries (inserts : Nat → Bool) : Nat → List KvSnapshotEntry → KvData → KvData
  | _, [], data => data
  | index, entry :: rest, data =>
    insertEntries inserts (index + 1) rest
      (if entry.key ∈ data ∨ inserts index then data.put entry.key { value := entry.value, expiration := entry.expiration }
       else data)

/-- `apply_snapshot_locked`. -/
def applySnapshotLocked (s : KvStore) (entries : List KvSnapshotEntry) (e : KvEnv) : KvStore × KvError :=
  ({ s with data := insertEntries e.inserts 0 entries ∅, metrics := {} }, .success)

/-- `import_snapshot`. No sink is notified. -/
def importSnapshot (s : KvStore) (entries : List KvSnapshotEntry) (e : KvEnv) : KvStore × KvError :=
  s.applySnapshotLocked entries e

end KvStore

end Libft.Storage
