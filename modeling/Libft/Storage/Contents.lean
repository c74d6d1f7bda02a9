import Libft.Storage.KvStore

/-!
# What a store holds

The contents of a store are a partial function from keys to entries. An operation has a meaning as a change of contents and a
condition under which it can be made; a batch is made of its operations one after the other. The loop of `kv_apply` refines this: it
succeeds exactly on a batch whose operations can all be made, with the contents the batch leads to, and otherwise leaves the data
and the counts of sets and deletes as they were.
-/

namespace Libft.Storage

open Function Int64 AList KvOperation

/-- The contents of a store: the entry of each key that has one. -/
abbrev Contents : Type := Bytes → Option KvEntry

/-- The contents of the data. -/
def KvData.contents (data : KvData) : Contents := fun key => data.lookup key

/-- When something with a time to live expires: never if that is negative, and no later than the greatest time there is. -/
def expirationAt (ttlSeconds now : Int64) : Option Int64 :=
  if ttlSeconds < 0 then none else some (Int64.ofInt (min (now.toInt + ttlSeconds.toInt) llongMax.toInt))

namespace KvOperation

/-- The entry a set operation gives its key: a set without a time to live keeps the expiration that was there. -/
def entry (op : KvOperation) (now : Int64) (old : Option KvEntry) : KvEntry where
  value := op.value
  expiration := if op.hasTtl then expirationAt op.ttlSeconds now else old.bind KvEntry.expiration

/-- The meaning of an operation. -/
def meaning (op : KvOperation) (now : Int64) (c : Contents) : Contents :=
  Function.update c op.key (if op.type = .delete then none else some (op.entry now (c op.key)))

/-- An operation can be made: it has a key; a delete finds it; a set has a value, a clock that works if it needs one, and memory
if its key is new. -/
def Applicable (op : KvOperation) (now : Int64) (memory : Bool) (c : Contents) : Prop :=
  op.key ≠ [] ∧
    if op.type = .delete then c op.key ≠ none
    else op.hasValue = true ∧ (op.hasTtl = true → 0 ≤ op.ttlSeconds → 0 ≤ now) ∧ (c op.key = none → memory = true)

instance decidableApplicable (op : KvOperation) (now : Int64) (memory : Bool) (c : Contents) :
    Decidable (op.Applicable now memory c) := by
  unfold Applicable
  infer_instance

end KvOperation

/-- The contents after a batch, the operations of which are numbered from an index on. -/
def Contents.applyAll (clock : Nat → Int64) : Nat → List KvOperation → Contents → Contents
  | _, [], c => c
  | index, op :: rest, c => applyAll clock (index + 1) rest (op.meaning (clock index) c)

/-- Every operation of a batch can be made where it stands. -/
def Contents.AllApplicable (clock : Nat → Int64) (memory : Nat → Bool) : Nat → List KvOperation → Contents → Prop
  | _, [], _ => True
  | index, op :: rest, c =>
    op.Applicable (clock index) (memory index) c ∧ AllApplicable clock memory (index + 1) rest (op.meaning (clock index) c)

instance Contents.decidableAllApplicable (clock : Nat → Int64) (memory : Nat → Bool) :
    ∀ index ops c, Decidable (Contents.AllApplicable clock memory index ops c)
  | _, [], _ => .isTrue trivial
  | index, op :: rest, c =>
    @instDecidableAnd _ _ _ (Contents.decidableAllApplicable clock memory (index + 1) rest (op.meaning (clock index) c))

/-- The contents of data in which a key was put. -/
theorem KvData.contents_put (data : KvData) (key : Bytes) (e : KvEntry) :
    KvData.contents (data.put key e) = update data.contents key (some e) := by
  funext k
  rw [update_apply]
  exact lookup_put key k e data

/-- The contents of data from which a key was erased. -/
theorem KvData.contents_erase (data : KvData) (key : Bytes) : KvData.contents (data.erase key) = update data.contents key none := by
  funext k
  rw [update_apply]
  split_ifs with hk
  · exact hk ▸ lookup_erase key data
  · exact lookup_erase_ne hk

/-- The code's expiration is the one that is meant, as long as the clock works. -/
theorem computeExpiration_eq (ttl now : Int64) :
    computeExpiration ttl now =
      if 0 ≤ ttl → 0 ≤ now then some (expirationAt ttl now) else none := by
  unfold computeExpiration expirationAt
  by_cases hneg : ttl < 0
  · have hw : 0 ≤ ttl → 0 ≤ now := fun h => absurd hneg (Int64.not_lt.2 h)
    rw [if_pos hneg, if_pos hw, if_pos hneg]
  have hp : 0 ≤ ttl := Int64.not_lt.1 hneg
  rw [if_neg hneg, if_neg hneg]
  by_cases hc : now < 0
  · rw [if_pos hc, if_neg fun h => Int64.not_lt.2 (h hp) hc]
  have hn : 0 ≤ now := Int64.not_lt.1 hc
  rw [if_neg hc, if_pos fun _ => hn]
  have hm : llongMax.toInt = 2 ^ 63 - 1 := by decide
  -- The difference that the code compares with does not wrap, since the clock is not negative.
  have hr : llongMax - now < ttl ↔ llongMax.toInt < now.toInt + ttl.toInt := by
    have hlt := now.toInt_lt
    rw [le_iff_toInt_le, toInt_zero] at hn
    rw [lt_iff_toInt_lt, toInt_sub, hm, Int.bmod_eq_of_le] <;> omega
  split_ifs with hl
  · rw [min_eq_right (hr.1 hl).le, ofInt_toInt]
  · rw [min_eq_left (not_lt.1 fun h => hl (hr.2 h)), ofInt_add, ofInt_toInt, ofInt_toInt]

/-- The contents without what has expired. -/
def Contents.pruned (now : Int64) (c : Contents) : Contents := fun key => (c key).filter fun e => !e.expired now

/-- The operations a store has counted. -/
def KvMetrics.operations (m : KvMetrics) : Int64 := m.setOperations + m.deleteOperations

theorem KvMetrics.operations_recordSet (m : KvMetrics) : m.recordSet.operations = m.operations + 1 := by
  simp only [operations, recordSet, Int64.add_assoc, Int64.add_comm 1]

theorem KvMetrics.operations_recordDelete (m : KvMetrics) : m.recordDelete.operations = m.operations + 1 :=
  (Int64.add_assoc _ _ _).symm

namespace KvStore

/-- What a turn of the loop of `kv_apply` leaves: its store when the operation can be made, and otherwise the one before the loop. -/
structure Makes (before s : KvStore) (op : KvOperation) (now : Int64) (r : KvStore × KvError) : Prop where
  success : r.2 = .success
  contents : KvData.contents r.1.data = op.meaning now s.data.contents
  rollback : r.1.rollback before = s.rollback before
  counts : r.1.metrics.operations = s.metrics.operations + 1

/-- A set of a key that is there. -/
theorem applySetExisting_cases (s before : KvStore) (op : KvOperation) {entry : KvEntry} (now : Int64)
    (ht : op.type ≠ .delete) (he : s.data.contents op.key = some entry) :
    (op.hasTtl = true → 0 ≤ op.ttlSeconds → 0 ≤ now) ∧ Makes before s op now (s.applySetExisting before op entry now) ∨
      ¬(op.hasTtl = true → 0 ≤ op.ttlSeconds → 0 ≤ now) ∧
        s.applySetExisting before op entry now = (s.rollback before, .invalidOperation) := by
  have hmn (expiration : Option Int64) (h : expiration = (op.entry now (some entry)).expiration) :
      update s.data.contents op.key (some { value := op.value, expiration }) = op.meaning now s.data.contents := by
    rw [meaning, if_neg ht, he, h]
    rfl
  unfold applySetExisting
  by_cases hTtl : op.hasTtl = true
  · simp only [if_pos hTtl, computeExpiration_eq]
    by_cases hc : 0 ≤ op.ttlSeconds → 0 ≤ now
    · refine .inl ⟨fun _ => hc, ?_⟩
      rw [if_pos hc]
      refine ⟨rfl, ?_, rfl, s.metrics.operations_recordSet⟩
      show KvData.contents ((s.data.put op.key _).put op.key _) = _
      rw [KvData.contents_put, KvData.contents_put, update_idem]
      exact hmn _ (by rw [KvOperation.entry, if_pos hTtl])
    · refine .inr ⟨fun h => hc (h hTtl), ?_⟩
      rw [if_neg hc]
      rfl
  · refine .inl ⟨fun h => absurd h hTtl, ?_⟩
    simp only [if_neg hTtl]
    refine ⟨rfl, ?_, rfl, s.metrics.operations_recordSet⟩
    show KvData.contents (s.data.put op.key _) = _
    rw [KvData.contents_put]
    exact hmn _ (by rw [KvOperation.entry, if_neg hTtl]; rfl)

/-- A set of a key that is new. -/
theorem applySetNew_cases (s before : KvStore) (op : KvOperation) (now : Int64) (memory : Bool)
    (ht : op.type ≠ .delete) (hn : s.data.contents op.key = none) :
    ((op.hasTtl = true → 0 ≤ op.ttlSeconds → 0 ≤ now) ∧ memory = true) ∧
        Makes before s op now (s.applySetNew before op now memory) ∨
      ¬((op.hasTtl = true → 0 ≤ op.ttlSeconds → 0 ≤ now) ∧ memory = true) ∧
        s.applySetNew before op now memory = (s.rollback before, .invalidOperation) := by
  have he : (if op.hasTtl = true then computeExpiration op.ttlSeconds now else some none) =
      if op.hasTtl = true → 0 ≤ op.ttlSeconds → 0 ≤ now then some (op.entry now none).expiration else none := by
    by_cases hTtl : op.hasTtl = true
    · simp only [computeExpiration_eq, entry, hTtl, forall_const, if_true]
    · simp [entry, hTtl]
  unfold applySetNew
  rw [he]
  by_cases hc : op.hasTtl = true → 0 ≤ op.ttlSeconds → 0 ≤ now
  · rw [if_pos hc]
    cases memory with
    | false => exact .inr ⟨fun h => Bool.false_ne_true h.2, rfl⟩
    | true =>
      refine .inl ⟨⟨hc, rfl⟩, rfl, ?_, rfl, s.metrics.operations_recordSet⟩
      show KvData.contents (s.data.put op.key _) = _
      rw [KvData.contents_put, meaning, if_neg ht, hn]
      rfl
  · rw [if_neg hc]
    exact .inr ⟨fun h => hc h.1, rfl⟩

/-- A turn of the loop makes the operation if it can be made, and otherwise goes back to where the loop began. -/
theorem applyOperation_cases (s before : KvStore) (op : KvOperation) (now : Int64) (memory : Bool) :
    op.Applicable now memory s.data.contents ∧ Makes before s op now (s.applyOperation before op now memory) ∨
      ¬op.Applicable now memory s.data.contents ∧
        s.applyOperation before op now memory = (s.rollback before, .invalidOperation) := by
  unfold applyOperation KvOperation.Applicable
  by_cases hkey : op.key = []
  · rw [if_pos hkey]
    exact .inr ⟨fun h => h.1 hkey, rfl⟩
  rw [if_neg hkey]
  by_cases ht : op.type = .delete
  · rw [if_pos ht, if_pos ht]
    by_cases hmem : op.key ∈ s.data
    · rw [if_pos hmem]
      refine .inl ⟨⟨hkey, fun h => lookup_eq_none.1 h hmem⟩, rfl, ?_, rfl, s.metrics.operations_recordDelete⟩
      show KvData.contents (s.data.erase op.key) = _
      rw [KvData.contents_erase, meaning, if_pos ht]
    · rw [if_neg hmem]
      exact .inr ⟨fun h => h.2 (lookup_eq_none.2 hmem), rfl⟩
  rw [if_neg ht, if_neg ht]
  cases hvalue : op.hasValue with
  | false => exact .inr ⟨fun h => Bool.false_ne_true h.2.1, rfl⟩
  | true =>
    cases he : s.data.lookup op.key with
    | some ent =>
      have hc : s.data.contents op.key = some ent := he
      rw [hc]
      rcases applySetExisting_cases s before op now ht hc with ⟨hcl, hmk⟩ | ⟨hcl, heq⟩
      · exact .inl ⟨⟨hkey, rfl, hcl, fun h => by cases h⟩, hmk⟩
      · exact .inr ⟨fun h => hcl h.2.2.1, heq⟩
    | none =>
      have hc : s.data.contents op.key = none := he
      rw [hc]
      rcases applySetNew_cases s before op now memory ht hc with ⟨⟨hcl, hmr⟩, hmk⟩ | ⟨hnt, heq⟩
      · exact .inl ⟨⟨hkey, rfl, hcl, fun _ => hmr⟩, hmk⟩
      · exact .inr ⟨fun h => hnt ⟨h.2.2.1, h.2.2.2 rfl⟩, heq⟩

/-- What the loop of `kv_apply` leaves of a batch that can be made. -/
structure MakesAll (before s : KvStore) (clock : Nat → Int64) (index : Nat) (ops : List KvOperation) (r : KvStore × KvError) :
    Prop where
  success : r.2 = .success
  contents : KvData.contents r.1.data = Contents.applyAll clock index ops s.data.contents
  rollback : r.1.rollback before = s.rollback before
  counts : r.1.metrics.operations = s.metrics.operations + .ofNat ops.length

variable {s : KvStore} {ops : List KvOperation}

/-- The loop of `kv_apply` does not touch the sinks. -/
theorem MakesAll.sinks_eq {before s' : KvStore} {clock : Nat → Int64} {i : Nat}
    (h : MakesAll before s clock i ops (s', .success)) : s'.sinks = s.sinks := by
  have hs : (s'.rollback before).sinks = (s.rollback before).sinks := by rw [h.rollback]
  exact hs

/-- The loop of `kv_apply` makes the whole batch if it can be made, and otherwise goes back to where it began. -/
theorem applyOperations_cases (before : KvStore) (e : KvEnv) (i : Nat) (ops : List KvOperation) (s : KvStore) :
    Contents.AllApplicable e.clock e.inserts i ops s.data.contents ∧
        MakesAll before s e.clock i ops (applyOperations before e i ops s) ∨
      ¬Contents.AllApplicable e.clock e.inserts i ops s.data.contents ∧
        applyOperations before e i ops s = (s.rollback before, .invalidOperation) := by
  induction ops generalizing i s with
  | nil => exact .inl ⟨trivial, rfl, rfl, rfl, (Int64.add_zero _).symm⟩
  | cons op tl ih =>
    unfold applyOperations Contents.AllApplicable
    rcases s.applyOperation_cases before op (e.clock i) (e.inserts i) with ⟨ha, hmk⟩ | ⟨hn, heq⟩
    · obtain ⟨hs, hc, hr, hcn⟩ := hmk
      generalize s.applyOperation before op (e.clock i) (e.inserts i) = r at *
      obtain ⟨s', err⟩ := r
      obtain rfl : err = .success := hs
      have hc' : s'.data.contents = op.meaning (e.clock i) s.data.contents := hc
      rw [← hc']
      rcases ih (i + 1) s' with ⟨hrs, hmr⟩ | ⟨hrs, heq⟩
      · refine .inl ⟨⟨ha, hrs⟩, hmr.success, ?_, hmr.rollback.trans hr, ?_⟩
        · rw [Contents.applyAll, ← hc']
          exact hmr.contents
        · have hn' : s'.metrics.operations = s.metrics.operations + 1 := hcn
          refine hmr.counts.trans ?_
          rw [hn', List.length_cons, Int64.add_assoc, Int64.add_comm 1, Int64.ofNat_add]
          rfl
      · refine .inr ⟨fun h => hrs h.2, heq.trans ?_⟩
        rw [show s'.rollback before = s.rollback before from hr]
    · rw [heq]
      exact .inr ⟨fun h => hn h.1, rfl⟩

theorem rollback_self (s : KvStore) : s.rollback s = s := rfl

/-- A prune removes what has expired and counts no operation, or fails and changes nothing. -/
theorem pruneExpiredLocked_cases (s : KvStore) (now : Int64) :
    ((s.pruneExpiredLocked now).2 = .success ∧
        KvData.contents (s.pruneExpiredLocked now).1.data = s.data.contents.pruned now ∧
        (s.pruneExpiredLocked now).1.sinks = s.sinks ∧
        (s.pruneExpiredLocked now).1.metrics.setOperations = s.metrics.setOperations ∧
        (s.pruneExpiredLocked now).1.metrics.deleteOperations = s.metrics.deleteOperations) ∨
      s.pruneExpiredLocked now = (s, .invalidOperation) := by
  unfold pruneExpiredLocked
  split_ifs with hn hc
  · refine .inl ⟨rfl, ?_, rfl, rfl, rfl⟩
    have hd : s.data = ∅ := ext hn
    funext key
    show s.data.lookup key = (s.data.lookup key).filter _
    rw [hd, lookup_empty]
    rfl
  · exact .inr rfl
  · refine .inl ⟨rfl, ?_, rfl, rfl, rfl⟩
    funext key
    exact lookup_restrict (fun _ e => !e.expired now) key s.data

variable {now : Int64}

/-- The contents after a prune that succeeds. -/
theorem contents_pruneExpiredLocked (h : (s.pruneExpiredLocked now).2 = .success) :
    KvData.contents (s.pruneExpiredLocked now).1.data = s.data.contents.pruned now := by
  rcases s.pruneExpiredLocked_cases now with ⟨-, hc, -⟩ | heq
  · exact hc
  · rw [heq] at h
    cases h

/-- A prune leaves the sinks and the counts of operations alone. -/
theorem pruneExpiredLocked_keeps (s : KvStore) (now : Int64) :
    (s.pruneExpiredLocked now).1.sinks = s.sinks ∧
      (s.pruneExpiredLocked now).1.metrics.setOperations = s.metrics.setOperations ∧
      (s.pruneExpiredLocked now).1.metrics.deleteOperations = s.metrics.deleteOperations := by
  rcases s.pruneExpiredLocked_cases now with ⟨-, -, hs, hst, hd⟩ | heq
  · exact ⟨hs, hst, hd⟩
  · rw [heq]
    exact ⟨rfl, rfl, rfl⟩

/-- A prune of which nothing has expired keeps the contents. -/
theorem contents_prune_of_unexpired (h : s.data.contents.pruned now = s.data.contents) :
    KvData.contents (s.pruneExpiredLocked now).1.data = s.data.contents := by
  rcases s.pruneExpiredLocked_cases now with ⟨-, hc, -⟩ | heq
  · rw [hc, h]
  · rw [heq]

/-- A prune succeeds if there is nothing to prune or the clock works. -/
theorem pruneExpiredLocked_success_iff (s : KvStore) (now : Int64) :
    (s.pruneExpiredLocked now).2 = .success ↔ (∀ key, s.data.contents key = none) ∨ 0 ≤ now := by
  have he : s.data.entries = [] ↔ ∀ key, s.data.contents key = none := by
    constructor
    · intro h key
      have hd : s.data = ∅ := ext h
      show s.data.lookup key = none
      rw [hd, lookup_empty]
    · intro h
      rw [List.eq_nil_iff_forall_not_mem]
      rintro ⟨key, e⟩ hm
      have hs : s.data.contents key = some e := mem_lookup_iff.2 hm
      rw [h key] at hs
      cases hs
  rw [← he]
  unfold pruneExpiredLocked
  split_ifs with hn hc
  · simp [hn]
  · simp [hn, Int64.not_le.2 hc]
  · simp [Int64.not_lt.1 hc]

/-- A batch can be applied: the call gets as far as its operations, and these can be made. -/
structure Applies (s : KvStore) (ops : List KvOperation) (e : KvEnv) : Prop where
  starts : e.starts = true
  prunes : (s.pruneExpiredLocked e.pruneClock).2 = .success
  copies : e.copies = true
  makes : Contents.AllApplicable e.clock e.inserts 0 ops (KvData.contents (s.pruneExpiredLocked e.pruneClock).1.data)

instance decidableApplies (s : KvStore) (ops : List KvOperation) (e : KvEnv) : Decidable (s.Applies ops e) :=
  decidable_of_iff (e.starts = true ∧ (s.pruneExpiredLocked e.pruneClock).2 = .success ∧ e.copies = true ∧
      Contents.AllApplicable e.clock e.inserts 0 ops (KvData.contents (s.pruneExpiredLocked e.pruneClock).1.data))
    ⟨fun h => ⟨h.1, h.2.1, h.2.2.1, h.2.2.2⟩, fun h => ⟨h.starts, h.prunes, h.copies, h.makes⟩⟩

/-- `kv_apply` stops before it prunes; or makes the batch and notifies the sinks; or only prunes. -/
theorem kvApply_cases (s : KvStore) (ops : List KvOperation) (e : KvEnv) :
    e.starts = false ∧ s.kvApply ops e = (s, .invalidOperation) ∨
      s.Applies ops e ∧ (∃ s', MakesAll (s.pruneExpiredLocked e.pruneClock).1 (s.pruneExpiredLocked e.pruneClock).1 e.clock 0 ops
          (s', .success) ∧ s.kvApply ops e = s'.notifyReplicationListeners ops e) ∨
      e.starts = true ∧ ¬s.Applies ops e ∧ s.kvApply ops e = ((s.pruneExpiredLocked e.pruneClock).1, .invalidOperation) := by
  unfold kvApply
  cases hs : e.starts with
  | false => exact .inl ⟨rfl, rfl⟩
  | true =>
    refine .inr ?_
    rcases hp : s.pruneExpiredLocked e.pruneClock with ⟨p, err⟩
    cases err with
    | success =>
      cases hc : e.copies with
      | false => exact .inr ⟨rfl, fun h => Bool.false_ne_true (hc.symm.trans h.copies), rfl⟩
      | true =>
        simp only [Bool.not_true, Bool.false_eq_true, if_false]
        rcases applyOperations_cases p e 0 ops p with ⟨hl, hmk⟩ | ⟨hn, heq⟩
        · refine .inl ⟨⟨hs, by rw [hp], hc, by rwa [hp]⟩, ?_⟩
          rcases ha : applyOperations p e 0 ops p with ⟨s', err⟩
          rw [ha] at hmk
          obtain rfl : err = .success := hmk.success
          refine ⟨s', hmk, ?_⟩
          simp only
          split_ifs with ho
          · rw [notifyReplicationListeners, if_pos ho]
          · rfl
        · refine .inr ⟨trivial, fun h => hn (by simpa only [hp] using h.makes), ?_⟩
          rw [heq, rollback_self]
    | invalidOperation | noMemory => exact .inr ⟨rfl, fun h => by simpa [hp] using h.prunes, rfl⟩

/-- A notification fails: the listeners cannot be copied, or one of them refuses. -/
def Refuses (s : KvStore) (e : KvEnv) : Prop :=
  e.listens = false ∨ ∃ index sink, s.sinks[index]? = some sink ∧ sink.hasOperations = true ∧ e.accepts index = false

/-- The loop over the sinks succeeds if and only if every callback does. -/
theorem notifySinks_success_iff (ops : List KvOperation) (accepts : Nat → Bool) (start : Nat) (sinks : List KvSink) :
    (notifySinks ops accepts start sinks).2 = .success ↔
      ∀ index sink, sinks[index]? = some sink → sink.hasOperations = true → accepts (start + index) = true := by
  induction sinks generalizing start with
  | nil => simp [notifySinks]
  | cons sink tl ih =>
    have hsp : (∀ index s, (sink :: tl)[index]? = some s → s.hasOperations = true → accepts (start + index) = true) ↔
        (sink.hasOperations = true → accepts start = true) ∧
          ∀ index s, tl[index]? = some s → s.hasOperations = true → accepts (start + 1 + index) = true := by
      constructor
      · intro h
        refine ⟨fun hs => h 0 sink rfl hs, fun index s hs => ?_⟩
        rw [add_assoc, add_comm 1]
        exact h (index + 1) s hs
      · rintro ⟨hf, hrs⟩ (_ | index) s hs
        · obtain rfl : sink = s := Option.some.inj hs
          exact hf
        · rw [← add_assoc, add_right_comm]
          exact hrs index s hs
    rw [hsp, ← ih (start + 1), notifySinks]
    split_ifs with hno hr
    · simp_all
    · simp_all
    · simp_all

/-- A notification changes the sinks alone, and succeeds if and only if nothing refuses. -/
theorem notifyReplicationListeners_spec (s : KvStore) (e : KvEnv) (ho : ops ≠ []) :
    (s.notifyReplicationListeners ops e).1.data = s.data ∧ (s.notifyReplicationListeners ops e).1.metrics = s.metrics ∧
      ((s.notifyReplicationListeners ops e).2 = .success ↔ ¬s.Refuses e) := by
  unfold notifyReplicationListeners Refuses
  rw [if_neg ho]
  cases hlistens : e.listens with
  | false => exact ⟨rfl, rfl, by simp⟩
  | true =>
    refine ⟨rfl, rfl, ?_⟩
    show (notifySinks ops e.accepts 0 s.sinks).2 = .success ↔ _
    rw [notifySinks_success_iff]
    simp

end KvStore

end Libft.Storage
