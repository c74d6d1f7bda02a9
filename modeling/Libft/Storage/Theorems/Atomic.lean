import Libft.Storage.Contents

/-!
# Batches that are all or nothing

`kv_apply` is to be atomic: with a success the data is what the operations lead to from the pruned data, with an error it is the
pruned data, and no set or delete has been counted. Its loop is: every error of an operation rolls back. The sinks are notified
after the commit, and an error of theirs is reported as one of the batch, which is committed all the same.
-/

namespace Libft.Storage

/-- A batch: an `ft_vector` of operations, whose size is an `ft_size_t`. -/
structure KvBatch where
  operations : List KvOperation
  size_lt : operations.length < 2 ^ 64

/-- A batch is all or nothing. -/
def KvStore.Atomic (s : KvStore) (ops : List KvOperation) (e : KvEnv) : Prop :=
  ((s.kvApply ops e).2 = .success →
      KvData.contents (s.kvApply ops e).1.data =
        Contents.applyAll e.clock 0 ops (KvData.contents (s.pruneExpiredLocked e.pruneClock).1.data)) ∧
    ((s.kvApply ops e).2 ≠ .success →
      (s.kvApply ops e).1.data = (s.pruneExpiredLocked e.pruneClock).1.data ∧
        (s.kvApply ops e).1.metrics.setOperations = (s.pruneExpiredLocked e.pruneClock).1.metrics.setOperations ∧
        (s.kvApply ops e).1.metrics.deleteOperations = (s.pruneExpiredLocked e.pruneClock).1.metrics.deleteOperations)

namespace KvStore

variable {s s' p : KvStore} {ops : List KvOperation} {e : KvEnv}

/-- A counter that less than 2 ^ 64 operations leave as it was has counted none. -/
theorem eq_zero_of_counts {m : Int64} {n : ℕ} (hc : m = m + .ofNat n) (hl : n < 2 ^ 64) : n = 0 := by
  have hz : Int64.ofNat n = 0 := by grind
  have hn : n % 2 ^ 64 = 0 := by simpa using congrArg (fun n => n.toBitVec.toNat) hz
  rwa [Nat.mod_eq_of_lt hl] at hn

/-- The loop of `kv_apply` does not touch the sinks. -/
theorem MakesAll.refuses_iff (h : MakesAll p p e.clock 0 ops (s', .success)) (hs : p.sinks = s.sinks) : s'.Refuses e ↔ s.Refuses e := by
  rw [Refuses, Refuses, h.sinks_eq, hs]

/-- A call that stops before it prunes is all or nothing if nothing had to be pruned. -/
theorem atomic_iff_of_not_starts (heq : s.kvApply ops e = (s, .invalidOperation)) :
    s.Atomic ops e ↔ (s.pruneExpiredLocked e.pruneClock).1.data = s.data := by
  obtain ⟨-, hs, hd⟩ := s.pruneExpiredLocked_keeps e.pruneClock
  rw [Atomic, heq]
  constructor
  · intro h
    exact (h.2 (by simp)).1.symm
  · intro h
    exact ⟨fun hc => (by cases hc), fun _ => ⟨h.symm, hs.symm, hd.symm⟩⟩

/-- A batch that was made is all or nothing unless a sink refuses it. -/
theorem atomic_iff_of_makes (hlt : ops.length < 2 ^ 64)
    (hmk : MakesAll (s.pruneExpiredLocked e.pruneClock).1 (s.pruneExpiredLocked e.pruneClock).1 e.clock 0 ops (s', .success))
    (heq : s.kvApply ops e = s'.notifyReplicationListeners ops e) :
    s.Atomic ops e ↔ (ops ≠ [] → ¬s.Refuses e) := by
  rw [Atomic, heq]
  by_cases hops : ops = []
  · have hnt : s'.notifyReplicationListeners ops e = (s', .success) := by rw [notifyReplicationListeners, if_pos hops]
    rw [hnt]
    exact ⟨fun _ h => absurd hops h, fun _ => ⟨fun _ => hmk.contents, fun h => absurd rfl h⟩⟩
  obtain ⟨hdt, hmt, hsuc⟩ := s'.notifyReplicationListeners_spec e hops
  rw [hmk.refuses_iff (s.pruneExpiredLocked_keeps e.pruneClock).1] at hsuc
  rw [hdt, hmt, ne_eq, hsuc]
  constructor
  · intro h _ hr
    -- The batch was counted, although its notification failed.
    obtain ⟨-, hs, hd⟩ := h.2 (not_not.2 hr)
    have hc := hmk.counts
    rw [KvMetrics.operations, hs, hd] at hc
    exact hops (List.length_eq_zero_iff.1 (eq_zero_of_counts hc hlt))
  · intro h
    exact ⟨fun _ => hmk.contents, fun hr => absurd (h hops) hr⟩

end KvStore

/-- A batch is all or nothing if and only if no sink refuses one that can be applied and is not empty, and nothing has expired when
the call stops before it prunes. -/
theorem atomic_iff (s : KvStore) (batch : KvBatch) (e : KvEnv) :
    s.Atomic batch.operations e ↔
      (s.Applies batch.operations e → batch.operations ≠ [] → ¬s.Refuses e) ∧
        (e.starts = false → (s.pruneExpiredLocked e.pruneClock).1.data = s.data) := by
  obtain ⟨ops, hlt⟩ := batch
  rcases s.kvApply_cases ops e with ⟨hs, heq⟩ | ⟨ha, s', hmk, heq⟩ | ⟨hs, hn, heq⟩
  · rw [KvStore.atomic_iff_of_not_starts heq]
    have hn : ¬s.Applies ops e := fun h => Bool.false_ne_true (hs.symm.trans h.starts)
    exact ⟨fun h => ⟨fun ha => absurd ha hn, fun _ => h⟩, fun h => h.2 hs⟩
  · rw [KvStore.atomic_iff_of_makes hlt hmk heq]
    have hs : e.starts ≠ false := fun h => Bool.false_ne_true (h.symm.trans ha.starts)
    exact ⟨fun h => ⟨fun _ => h, fun h => absurd h hs⟩, fun h => h.1 ha⟩
  · have hs' : e.starts ≠ false := fun h => Bool.false_ne_true (h.symm.trans hs)
    refine ⟨fun _ => ⟨fun ha => absurd ha hn, fun h => absurd h hs'⟩, fun _ => ?_⟩
    rw [KvStore.Atomic, heq]
    exact ⟨fun h => (by cases h), fun _ => ⟨rfl, rfl, rfl⟩⟩

/-- A store with one sink. -/
def sinkStore : KvStore where
  sinks := [{}]

/-- An environment that reads one time, in which the sinks answer the same. -/
def answering (accepts : Bool) : KvEnv where
  pruneClock := 100
  clock := fun _ => 100
  accepts := fun _ => accepts

/-- A sink that refuses a batch does not stop it: the error is reported, and the key is there. -/
theorem not_atomic_of_refused :
    (sinkStore.kvApply [setOperation [107] [118] (-1)] (answering false)).2 = .invalidOperation ∧
      ¬sinkStore.Atomic [setOperation [107] [118] (-1)] (answering false) := by
  refine ⟨by decide +kernel, fun h => ?_⟩
  have hd := congrArg AList.entries (h.2 (by decide +kernel)).1
  revert hd
  decide +kernel

end Libft.Storage
