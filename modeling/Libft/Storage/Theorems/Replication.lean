import Libft.Lib.Run
import Libft.Storage.Contents

/-!
# Replicas

A replica is a second store that starts with the contents of the primary and applies every batch that a sink of the primary is
given. It holds what the primary holds as long as every change of the primary reaches the sink as a batch. The sets, the deletes and
the batches do, unless a sink before it refuses; a prune and whatever prunes without a batch, a compare-and-swap and an import do
not.
-/

namespace Libft.Storage

open KvStore Nat KvData AList Contents

/-- A call that may change a store. -/
inductive KvCall where
  | set (key value : Option Bytes) (ttlSeconds : Int64)
  | delete (key : Option Bytes)
  | apply (operations : List KvOperation)
  | compareAndSwap (key expectedValue newValue : Option Bytes) (ttlSeconds : Int64)
  | prune
  | importSnapshot (entries : List KvSnapshotEntry)
  deriving DecidableEq

namespace KvStore

/-- The store after a call, and the code the call returns. -/
def call (s : KvStore) (e : KvEnv) : KvCall → KvStore × KvError
  | .set key value ttlSeconds => s.kvSet key value ttlSeconds e
  | .delete key => s.kvDelete key e
  | .apply operations => s.kvApply operations e
  | .compareAndSwap key expectedValue newValue ttlSeconds => s.kvCompareAndSwap key expectedValue newValue ttlSeconds e
  | .prune => s.pruneExpired e.pruneClock
  | .importSnapshot entries => s.importSnapshot entries e

/-- The batch a call applies, if it applies one. -/
def batch? (s : KvStore) : KvCall → Option (List KvOperation)
  | .set (some key) (some value) ttlSeconds => some [setOperation key value ttlSeconds]
  | .delete (some key) => if cString key ∈ s.data then some [deleteOperation key] else none
  | .apply operations => some operations
  | _ => none

/-- The batches the sink with an index was given. -/
def given (s : KvStore) (index : Nat) : List (List KvOperation) :=
  match s.sinks[index]? with
  | none => []
  | some sink => sink.given

/-- Nothing has expired. -/
def Unexpired (s : KvStore) (now : Int64) : Prop := s.data.contents.pruned now = s.data.contents

end KvStore

/-- A primary and the replica behind one of its sinks. -/
structure Replicated where
  primary : KvStore
  replica : KvStore

/-- A call on the primary, after which the replica applies what the sink was given. Each store has its own environment. -/
def Replicated.step (index : Nat) (s : Replicated) (i : KvCall × KvEnv × KvEnv) : Replicated where
  primary := (s.primary.call i.2.1 i.1).1
  replica :=
    (((s.primary.call i.2.1 i.1).1.given index).drop (s.primary.given index).length).foldl
      (fun r batch => (r.kvApply batch i.2.2).1) s.replica

/-- The replica holds what the primary holds. -/
def Replicated.Agrees (s : Replicated) : Prop := s.replica.data.contents = s.primary.data.contents

/-- A call whose change is reported: the replica reads the same clock and has memory; the sink is not kept from its batch; and the
call is one that prunes nothing unless it applies a batch. -/
structure Replicated.Reported (index : Nat) (s : Replicated) (i : KvCall × KvEnv × KvEnv) : Prop where
  clock : i.2.2.pruneClock = i.2.1.pruneClock ∧ i.2.2.clock = i.2.1.clock
  memory : i.2.2.starts = true ∧ i.2.2.copies = true ∧ ∀ n, i.2.2.inserts n = true
  reaches : i.2.1.listens = true ∧ ∀ n < index, i.2.1.accepts n = true
  call : match i.1 with
    | .compareAndSwap .. | .importSnapshot .. => False
    | .prune => s.primary.Unexpired i.2.1.pruneClock
    | call => ∀ batch, s.primary.batch? call = some batch →
        s.primary.Applies batch i.2.1 ∧ batch ≠ [] ∨ s.primary.Unexpired i.2.1.pruneClock

namespace KvStore

variable {s p r : KvStore} {ops : List KvOperation} {e e' : KvEnv} {sink : KvSink} {index : Nat}

/-- The loop over the sinks gives the batch to a sink if those before it accept it. -/
theorem notifySinks_getElem? (ops : List KvOperation) (accepts : Nat → Bool) (start index : Nat) (sinks : List KvSink)
    (hs : sinks[index]? = some sink) (ho : sink.hasOperations = true)
    (hb : ∀ n < index, accepts (start + n) = true) :
    (notifySinks ops accepts start sinks).1[index]? = some { sink with given := sink.given ++ [ops] } := by
  induction sinks generalizing start index with
  | nil => simp at hs
  | cons first tl ih =>
    cases index with
    | zero =>
      obtain rfl : first = sink := Option.some.inj hs
      unfold notifySinks
      rw [if_neg (by simp [ho])]
      split_ifs <;> rfl
    | succ index =>
      have hf : accepts start = true := hb 0 (succ_pos index)
      have hrs := ih (start + 1) index hs fun n hn => by
        rw [add_assoc, add_comm 1]
        exact hb (n + 1) (succ_lt_succ hn)
      unfold notifySinks
      rw [hf]
      split_ifs with hno hr
      · exact hrs
      · simp at hr
      · exact hrs

/-- The contents after a batch that is applied, whatever the sinks answer. -/
theorem Applies.contents_eq (h : s.Applies ops e) :
    contents (s.kvApply ops e).1.data =
      applyAll e.clock 0 ops (s.data.contents.pruned e.pruneClock) := by
  rcases s.kvApply_cases ops e with ⟨hs, -⟩ | ⟨-, s', hmk, heq⟩ | ⟨-, hn, -⟩
  · exact absurd (hs.symm.trans h.starts) Bool.false_ne_true
  · rw [heq, ← contents_pruneExpiredLocked h.prunes]
    by_cases hops : ops = []
    · rw [notifyReplicationListeners, if_pos hops]
      exact hmk.contents
    · rw [(s'.notifyReplicationListeners_spec e hops).1]
      exact hmk.contents
  · exact absurd h hn

/-- More memory makes no operation impossible. -/
theorem allApplicable_mono {clock : Nat → Int64} {memory mem' : Nat → Bool} (hm : ∀ n, mem' n = true) (index : Nat)
    {c : Contents} (h : AllApplicable clock memory index ops c) : AllApplicable clock mem' index ops c := by
  induction ops generalizing index c with
  | nil => trivial
  | cons op tl ih =>
    obtain ⟨⟨hk, hop⟩, hr⟩ := h
    refine ⟨⟨hk, ?_⟩, ih (index + 1) hr⟩
    split_ifs at hop ⊢ with hd
    · exact hop
    · exact ⟨hop.1, hop.2.1, fun _ => hm index⟩

/-- A batch that the primary applies is one that a store with the same contents and enough memory applies at the same time. -/
theorem Applies.transfer (h : p.Applies ops e) (hc : r.data.contents = p.data.contents)
    (hcl : e'.pruneClock = e.pruneClock ∧ e'.clock = e.clock)
    (hm : e'.starts = true ∧ e'.copies = true ∧ ∀ n, e'.inserts n = true) : r.Applies ops e' := by
  have hp : (r.pruneExpiredLocked e'.pruneClock).2 = .success := by
    rw [pruneExpiredLocked_success_iff, hc, hcl.1, ← pruneExpiredLocked_success_iff]
    exact h.prunes
  refine ⟨hm.1, hp, hm.2.1, ?_⟩
  have hmk := h.makes
  rw [contents_pruneExpiredLocked h.prunes] at hmk
  rw [contents_pruneExpiredLocked hp, hc, hcl.1, hcl.2]
  exact allApplicable_mono hm.2.2 0 hmk

/-- Nothing has expired if no entry has. -/
theorem unexpired_of_entries {now : Int64} (h : ∀ entry ∈ s.data.entries, (!entry.2.expired now) = true) : s.Unexpired now := by
  have hs := (restrict_eq_self_iff (fun _ e => !e.expired now) s.data).2 h
  funext key
  have hl := lookup_restrict (fun _ e => !e.expired now) key s.data
  rw [hs] at hl
  exact hl.symm

/-- A sink with an operations callback is at an index. -/
def HasSink (s : KvStore) (index : Nat) : Prop := ∃ sink, s.sinks[index]? = some sink ∧ sink.hasOperations = true

theorem given_eq (h : s.sinks[index]? = some sink) : s.given index = sink.given := by
  unfold given
  rw [h]

/-- A batch that is applied is given to a sink that nothing keeps from it, and to it alone once. -/
theorem Applies.given_eq (h : s.Applies ops e) (hops : ops ≠ []) (hsn : s.HasSink index)
    (hr : e.listens = true ∧ ∀ n < index, e.accepts n = true) :
    (s.kvApply ops e).1.given index = s.given index ++ [ops] ∧ (s.kvApply ops e).1.HasSink index := by
  rcases s.kvApply_cases ops e with ⟨hs, -⟩ | ⟨-, s', hmk, heq⟩ | ⟨-, hnot, -⟩
  · exact absurd (hs.symm.trans h.starts) Bool.false_ne_true
  · obtain ⟨sink, ht, ho⟩ := hsn
    have hsm : s'.sinks = s.sinks := hmk.sinks_eq.trans (s.pruneExpiredLocked_keeps e.pruneClock).1
    have hg := notifySinks_getElem? ops e.accepts 0 index s.sinks ht ho fun n hn => by
      rw [zero_add]
      exact hr.2 n hn
    have hnt : (s.kvApply ops e).1.sinks[index]? = some { sink with given := sink.given ++ [ops] } := by
      rw [heq, notifyReplicationListeners, if_neg hops, hr.1, hsm]
      exact hg
    rw [KvStore.given_eq hnt, KvStore.given_eq ht]
    exact ⟨rfl, _, hnt, ho⟩
  · exact absurd h hnot

/-- A batch that is not applied leaves the sinks, and the contents if nothing has expired. -/
theorem kvApply_of_not_applies (hn : ¬(s.Applies ops e ∧ ops ≠ [])) (hu : s.Unexpired e.pruneClock) :
    (s.kvApply ops e).1.sinks = s.sinks ∧ contents (s.kvApply ops e).1.data = s.data.contents := by
  rcases s.kvApply_cases ops e with ⟨-, heq⟩ | ⟨ha, s', hmk, heq⟩ | ⟨-, -, heq⟩
  · rw [heq]
    exact ⟨rfl, rfl⟩
  · have ho : ops = [] := not_not.1 fun hne => hn ⟨ha, hne⟩
    refine ⟨?_, ?_⟩
    · rw [heq, notifyReplicationListeners, if_pos ho]
      exact hmk.sinks_eq.trans (s.pruneExpiredLocked_keeps e.pruneClock).1
    · rw [ha.contents_eq, hu, ho]
      rfl
  · rw [heq]
    exact ⟨(s.pruneExpiredLocked_keeps e.pruneClock).1, contents_prune_of_unexpired hu⟩

end KvStore

namespace Replicated

variable {s : Replicated} {index : Nat} {i : KvCall × KvEnv × KvEnv} {batch : List KvOperation}

/-- The two agree after a call that changes neither the contents nor the sinks. -/
theorem agrees_of_unchanged (h : s.Agrees)
    (hs : (s.primary.call i.2.1 i.1).1.sinks = s.primary.sinks ∧
      contents (s.primary.call i.2.1 i.1).1.data = s.primary.data.contents) : (s.step index i).Agrees := by
  have hg : (s.primary.call i.2.1 i.1).1.given index = s.primary.given index := by
    unfold given
    rw [hs.1]
  unfold Agrees step
  rw [hg, List.drop_length, hs.2]
  exact h

/-- The two agree after a batch that the primary applies and the sink is given. -/
theorem agrees_of_applies (h : s.Agrees) (hs : s.primary.HasSink index)
    (hr : s.Reported index i) (hc : s.primary.call i.2.1 i.1 = s.primary.kvApply batch i.2.1)
    (ha : s.primary.Applies batch i.2.1) (hb : batch ≠ []) : (s.step index i).Agrees ∧ (s.step index i).primary.HasSink index := by
  obtain ⟨hg, hk⟩ := ha.given_eq hb hs hr.reaches
  have hrp := ha.transfer h hr.clock hr.memory
  unfold Agrees step
  rw [hc, hg, List.drop_left]
  refine ⟨?_, hk⟩
  show contents (s.replica.kvApply batch i.2.2).1.data = _
  rw [hrp.contents_eq, ha.contents_eq, hr.clock.1, hr.clock.2, show _ = _ from h]

/-- A call with a batch. -/
theorem agrees_of_batch (h : s.Agrees) (hsn : s.primary.HasSink index)
    (hr : s.Reported index i) (hc : s.primary.call i.2.1 i.1 = s.primary.kvApply batch i.2.1)
    (hb : s.primary.Applies batch i.2.1 ∧ batch ≠ [] ∨ s.primary.Unexpired i.2.1.pruneClock) :
    (s.step index i).Agrees ∧ (s.step index i).primary.HasSink index := by
  by_cases ha : s.primary.Applies batch i.2.1 ∧ batch ≠ []
  · exact agrees_of_applies h hsn hr hc ha.1 ha.2
  · have hs := kvApply_of_not_applies ha (hb.resolve_left ha)
    rw [← hc] at hs
    refine ⟨agrees_of_unchanged h hs, ?_⟩
    obtain ⟨sink, hg, ho⟩ := hsn
    exact ⟨sink, by rw [← hg, ← hs.1]; rfl, ho⟩

/-- A call without a batch that changes nothing. -/
theorem agrees_of_none (h : s.Agrees) (hs : s.primary.HasSink index) (hc : (s.primary.call i.2.1 i.1).1 = s.primary) :
    (s.step index i).Agrees ∧ (s.step index i).primary.HasSink index := by
  refine ⟨agrees_of_unchanged h (by rw [hc]; exact ⟨rfl, rfl⟩), ?_⟩
  show ((s.primary.call i.2.1 i.1).1).HasSink index
  rwa [hc]

/-- Every call that is reported keeps the two in agreement. -/
theorem agrees_step (s : Replicated) (i : KvCall × KvEnv × KvEnv) (h : s.Agrees ∧ s.primary.HasSink index)
    (hr : s.Reported index i) : (s.step index i).Agrees ∧ (s.step index i).primary.HasSink index := by
  obtain ⟨ha, hsn⟩ := h
  obtain ⟨call, e, e'⟩ := i
  have hc := hr.call
  cases call with
  | set key value ts =>
    rcases key with _ | key
    · exact agrees_of_none ha hsn rfl
    rcases value with _ | value
    · exact agrees_of_none ha hsn rfl
    exact agrees_of_batch ha hsn hr rfl (hc _ rfl)
  | delete key =>
    rcases key with _ | key
    · exact agrees_of_none ha hsn rfl
    by_cases hmem : cString key ∈ s.primary.data
    · have hb : s.primary.batch? (.delete (some key)) = some [deleteOperation key] := if_pos hmem
      exact agrees_of_batch ha hsn hr (if_pos hmem) (hc _ hb)
    · refine agrees_of_none ha hsn ?_
      show (s.primary.kvDelete (some key) e).1 = s.primary
      rw [kvDelete, if_neg hmem]
  | apply operations => exact agrees_of_batch ha hsn hr rfl (hc _ rfl)
  | compareAndSwap | importSnapshot => exact hc.elim
  | prune =>
    have hs := (s.primary.pruneExpiredLocked_keeps e.pruneClock).1
    refine ⟨agrees_of_unchanged ha ⟨hs, contents_prune_of_unexpired hc⟩, ?_⟩
    obtain ⟨sink, hg, ho⟩ := hsn
    exact ⟨sink, by rw [← hg, ← hs]; rfl, ho⟩

end Replicated

/-- A replica: behind a sink that has an operations callback, a store that starts with the contents of the primary and applies the
batches the sink is given holds the same keys, values and expirations after every run of calls that are reported. -/
theorem agrees_of_reported (index : Nat) (s : Replicated) (hstart : s.Agrees) (hsink : s.primary.HasSink index)
    (inputs : List (KvCall × KvEnv × KvEnv)) (hreported : Meets (Replicated.step index) (Replicated.Reported index) s inputs) :
    (inputs.foldl (Replicated.step index) s).Agrees :=
  (hreported.invariant (I := fun s => s.Agrees ∧ s.primary.HasSink index) (fun s i h hi => Replicated.agrees_step s i h hi)
    ⟨hstart, hsink⟩).1

/-- A primary with one sink and a replica, both of which hold one key. -/
def holding (e : KvEntry) : Replicated where
  primary := { data := singleton [107] e, sinks := [{}] }
  replica := { data := singleton [107] e }

/-- An environment in which the clock reads a time. -/
def readingAt (now : Int64) : KvEnv where
  pruneClock := now
  clock := fun _ => now

/-- At one time, for the first sink, a call is reported that applies its batch, or that prunes when nothing has expired. -/
theorem reported_at {s : Replicated} {call : KvCall} {now : Int64}
    (hc : match call with
      | .compareAndSwap .. | .importSnapshot .. => False
      | .prune => ∀ entry ∈ s.primary.data.entries, (!entry.2.expired now) = true
      | call => ∃ batch, s.primary.batch? call = some batch ∧ s.primary.Applies batch (readingAt now) ∧ batch ≠ []) :
    s.Reported 0 (call, readingAt now, readingAt now) := by
  refine ⟨⟨rfl, rfl⟩, ⟨rfl, rfl, fun _ => rfl⟩, ⟨rfl, fun n hn => absurd hn (not_lt_zero n)⟩, ?_⟩
  have hbt {call : KvCall}
      (h : ∃ batch, s.primary.batch? call = some batch ∧ s.primary.Applies batch (readingAt now) ∧ batch ≠ [])
      (batch : List KvOperation) (hb : s.primary.batch? call = some batch) :
      s.primary.Applies batch (readingAt now) ∧ batch ≠ [] ∨ s.primary.Unexpired now := by
    obtain ⟨b', hb', ha⟩ := h
    obtain rfl : b' = batch := Option.some.inj (hb'.symm.trans hb)
    exact .inl ha
  cases call with
  | compareAndSwap | importSnapshot => exact hc
  | prune => exact unexpired_of_entries hc
  | set | delete | apply => exact hbt hc

/-- A run that sets two keys, one of them for ten seconds, prunes, lets that key expire and deletes the other. -/
def reportedRun : List (KvCall × KvEnv × KvEnv) :=
  [(.set (some [97]) (some [49]) 10, readingAt 100, readingAt 100), (.prune, readingAt 105, readingAt 105),
    (.set (some [98]) (some [50]) (-1), readingAt 200, readingAt 200),
    (.delete (some [98]), readingAt 201, readingAt 201)]

theorem agrees_of_reported_run :
    (holding { value := [118] }).primary.HasSink 0 ∧
      (reportedRun.foldl (Replicated.step 0) (holding { value := [118] })).primary.data.entries = [⟨[107], { value := [118] }⟩] ∧
      (reportedRun.foldl (Replicated.step 0) (holding { value := [118] })).Agrees := by
  have hsn : (holding { value := [118] }).primary.HasSink 0 := ⟨{}, rfl, rfl⟩
  have hs : (holding { value := [118] }).Agrees := rfl
  refine ⟨hsn, by decide +kernel, agrees_of_reported 0 _ hs hsn reportedRun ?_⟩
  refine ⟨reported_at ⟨_, rfl, ?_⟩, reported_at ?_, reported_at ⟨_, rfl, ?_⟩, reported_at ⟨[deleteOperation [98]], ?_, ?_⟩, trivial⟩
  all_goals decide +kernel

/-- A compare-and-swap, a snapshot import and a prune change the primary, and no sink is given anything: the replica keeps what it
had. -/
theorem not_agrees_of_compareAndSwap :
    ((holding { value := [118] }).Agrees ∧
      ¬((holding { value := [118] }).step 0
        (.compareAndSwap (some [107]) (some [118]) (some [119]) (-1), readingAt 100, readingAt 100)).Agrees) ∧
    ¬((holding { value := [118] }).step 0 (.importSnapshot [], readingAt 100, readingAt 100)).Agrees ∧
    ¬((holding { value := [118], expiration := some 50 }).step 0 (.prune, readingAt 100, readingAt 100)).Agrees := by
  refine ⟨⟨rfl, fun h => ?_⟩, fun h => ?_, fun h => ?_⟩
  all_goals
    have hk := congrFun h [107]
    revert hk
    decide +kernel

end Libft.Storage
