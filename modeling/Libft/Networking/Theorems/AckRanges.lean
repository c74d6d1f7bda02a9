import Libft.Networking.Lemmas.Ranges

/-!
# What an acknowledgement takes out of the sent list

A receiver records any numbers in any order, encodes its ranges into an acknowledgement, and the sender reads and applies it. The
block gives each range as two distances below the largest number, the farther one first; `apply_ack` asks for a distance at least the
first and at most the second, which only a range of one number can meet. So what leaves the sent list is the largest number and the
ranges of one number (`isAcknowledged_iff`), and the acknowledgement does what it says exactly when nothing else was covered.
-/

namespace Libft.Networking

open List Set

open UInt64 (le_of_lt le_iff_toNat_le toNat_inj le_refl)

/-- A receiver after the numbers it was given, in their order. -/
def receiveAll (c : ConnectionRecord) (arrivals : List UInt64) : ConnectionRecord :=
  arrivals.foldl ConnectionRecord.recordReceived c

/-- The numbers a receiver acknowledges: those in its ranges that are within 65535 of the largest. -/
def Covered (receiver : ConnectionRecord) (n : UInt64) : Prop :=
  receiver.largestReceived.toNat - n.toNat ≤ 65535 ∧ ∃ range ∈ receiver.receivedRanges, range.Holds n

instance (receiver : ConnectionRecord) (n : UInt64) : Decidable (Covered receiver n) := inferInstanceAs (Decidable (_ ∧ _))

/-- The sender's list after the receiver's acknowledgement was encoded, read and applied. -/
def sentAfterAck (receiver sender : ConnectionRecord) (id packetNumber keyEpoch now : UInt64) : Option (List SentPacket) :=
  (readAck (encodeAck id packetNumber keyEpoch receiver.largestReceived receiver.receivedRanges)).map fun body =>
    (applyAck now sender body.largestAcknowledged body.acknowledgedRanges).sent

/-- A receiver that has seen nothing records what arrives, in any order. -/
theorem records_receiveAll {arrivals : List UInt64} : ∀ {S : Set UInt64} {c : ConnectionRecord},
    Records S c.largestReceived c.receivedRanges → NoWrap (S ∪ {n | n ∈ arrivals}) →
    Records (S ∪ {n | n ∈ arrivals}) (receiveAll c arrivals).largestReceived (receiveAll c arrivals).receivedRanges := by
  induction arrivals with
  | nil =>
    intro S c h hw
    simpa [receiveAll] using h
  | cons n arrivals ih =>
    intro S c h hw
    have hs : S ∪ {m | m ∈ n :: arrivals} = insert n S ∪ {m | m ∈ arrivals} := by
      ext m
      simp only [mem_union, mem_ofPred_eq, mem_cons, mem_insert_iff]
      tauto
    have hsub : insert n S ⊆ S ∪ {m | m ∈ n :: arrivals} := hs ▸ subset_union_left
    rw [hs] at hw ⊢
    exact ih (h.recordReceived fun hb => hw ⟨hs ▸ hsub hb.1, hs ▸ hsub hb.2⟩) hw

variable {top n : UInt64}

/-- Between the two distances of a range lies the distance of a number below the largest only when the range is that number alone and
in reach. -/
theorem delta_between_iff {range : AckRange} (hv : range.start ≤ range.end_) (hle : range.end_ ≤ top) (hn : n < top) :
    ((ackDelta top range).1.toUInt64 ≤ top - n ∧ top - n ≤ (ackDelta top range).2.toUInt64) ↔
      range.start = n ∧ range.end_ = n ∧ top.toNat - n.toNat ≤ 65535 := by
  have hd : (top - n).toNat = top.toNat - n.toNat := UInt64.toNat_sub_of_le _ _ (le_of_lt hn)
  have hn' := UInt64.lt_iff_toNat_lt.1 hn
  have hv' := le_iff_toNat_le.1 hv
  have hl' := le_iff_toNat_le.1 hle
  rw [le_iff_toNat_le, le_iff_toNat_le, hd, UInt16.toNat_toUInt64, UInt16.toNat_toUInt64, ← toNat_inj, ← toNat_inj]
  unfold ackDelta
  split
  · rename_i hr
    simp only [toNat_distance hr.1 hr.2.1, toNat_distance hr.2.2.1 hr.2.2.2]
    have hf : (top - range.end_).toNat ≤ 65535 := le_iff_toNat_le.1 hr.2.2.2
    rw [UInt64.toNat_sub_of_le _ _ hle] at hf
    omega
  · -- a range out of reach is written as two zeros, and the distance is not zero
    rename_i hr
    refine iff_of_false (fun h => ?_) (fun h => hr ?_)
    · have := h.2
      simp at this
      omega
    · have hs : range.start = n := toNat_inj.1 h.1
      have he : range.end_ = n := toNat_inj.1 h.2.1
      have hf : top - n ≤ 65535 := le_iff_toNat_le.2 (by rw [hd]; exact h.2.2)
      rw [hs, he]
      exact ⟨le_of_lt hn, hf, le_of_lt hn, hf⟩

variable {S : Set UInt64}

/-- What a receiver's acknowledgement takes out: the largest number, and the numbers in reach that are a range of their own. -/
theorem isAcknowledged_iff {rs : List AckRange} (h : Records S top rs) (n : UInt64) :
    isAcknowledged top (rs.map (ackDelta top)) n = true ↔
      n = top ∨ top.toNat - n.toNat ≤ 65535 ∧ ∃ r ∈ rs, r.start = n ∧ r.end_ = n := by
  unfold isAcknowledged
  by_cases heq : n = top
  · simp [heq]
  rw [if_neg heq]
  by_cases hlt : n < top
  · rw [if_pos hlt]
    simp only [any_map, any_eq_true, Function.comp_apply, Bool.and_eq_true, decide_eq_true_eq, heq, false_or]
    constructor
    · rintro ⟨r, hr, hb⟩
      have := (delta_between_iff (h.madeOf r hr).valid (h.end_le hr) hlt).1 hb
      exact ⟨this.2.2, r, hr, this.1, this.2.1⟩
    · rintro ⟨hf, r, hr, hs, he⟩
      exact ⟨r, hr, (delta_between_iff (h.madeOf r hr).valid (h.end_le hr) hlt).2 ⟨hs, he, hf⟩⟩
  · rw [if_neg hlt]
    refine iff_of_false (by simp) ?_
    rintro (rfl | ⟨-, r, hr, -, rfl⟩)
    · exact heq rfl
    · exact hlt (UInt64.lt_of_le_of_ne (h.end_le hr) heq)

/-- Two filters of one list agree exactly when their tests agree on it. -/
theorem filter_eq_filter_iff {α : Type} {l : List α} {p q : α → Bool} : l.filter p = l.filter q ↔ ∀ x ∈ l, p x = q x := by
  refine ⟨fun h x hx => ?_, filter_congr⟩
  have : x ∈ l.filter p ↔ x ∈ l.filter q := by rw [h]
  simp only [mem_filter, hx, true_and] at this
  exact Bool.eq_iff_iff.2 this

/-- What is acknowledged is covered. -/
theorem covered_of_isAcknowledged {r : ConnectionRecord} (h : Records S r.largestReceived r.receivedRanges)
    (hS : S.Nonempty)
    (ha : isAcknowledged r.largestReceived (r.receivedRanges.map (ackDelta r.largestReceived)) n = true) : Covered r n := by
  rcases (isAcknowledged_iff h n).1 ha with rfl | ⟨hf, range, hr, hs, he⟩
  · obtain ⟨range, hr, he⟩ := h.exists_top hS
    refine ⟨by simp, range, hr, ?_⟩
    rw [AckRange.Holds, ← he]
    exact ⟨(h.madeOf range hr).valid, le_refl _⟩
  · exact ⟨hf, range, hr, hs ▸ le_refl _, he ▸ le_refl _⟩

/-- An acknowledgement takes exactly the covered packets out of the sent list if and only if every covered packet of the list has the
largest number or is a range of its own. -/
theorem sentAfterAck_eq_iff (c : ConnectionRecord) (hc : c.receivedRanges = [] ∧ c.largestReceived = 0) (arrivals : List UInt64)
    (hne : arrivals ≠ []) (hw : ¬(0 ∈ arrivals ∧ -1 ∈ arrivals)) (sender : ConnectionRecord)
    (id packetNumber keyEpoch now : UInt64) :
    let receiver := receiveAll c arrivals
    sentAfterAck receiver sender id packetNumber keyEpoch now =
        some (sender.sent.filter fun p => !decide (Covered receiver p.packetNumber)) ↔
      ∀ p ∈ sender.sent, Covered receiver p.packetNumber →
        p.packetNumber = receiver.largestReceived ∨
          ∃ range ∈ receiver.receivedRanges, range.start = p.packetNumber ∧ range.end_ = p.packetNumber := by
  intro receiver
  have hst : Records ∅ c.largestReceived c.receivedRanges := by
    rw [hc.1, hc.2]
    exact Records.empty
  have h : Records {n | n ∈ arrivals} receiver.largestReceived receiver.receivedRanges := by
    simpa using records_receiveAll hst (by simpa [NoWrap] using hw)
  have hS : ({n | n ∈ arrivals} : Set UInt64).Nonempty := exists_mem_of_ne_nil _ hne
  have hrd := readAck_encode id packetNumber keyEpoch receiver.largestReceived h.length_le fun r hr => (h.madeOf r hr).valid
  rw [sentAfterAck, hrd, Option.map_some, Option.some.injEq]
  simp only [applyAck]
  rw [filter_eq_filter_iff]
  refine forall₂_congr fun p _ => ?_
  rw [Bool.not_inj_iff]
  constructor
  · intro heq hv
    rw [decide_eq_true hv] at heq
    exact ((isAcknowledged_iff h _).1 heq).imp_right And.right
  · intro hs
    by_cases hv : Covered receiver p.packetNumber
    · rw [decide_eq_true hv]
      exact (isAcknowledged_iff h _).2 ((hs hv).imp_right fun hr => ⟨hv.1, hr⟩)
    · rw [decide_eq_false hv]
      exact Bool.eq_false_iff.2 fun ha => hv (covered_of_isAcknowledged h hS ha)

/-- A sender whose packets of these numbers are on their way, each with one byte. -/
def senderOf (packetNumbers : List UInt64) : ConnectionRecord where
  sent := packetNumbers.map fun n =>
    { packetNumber := n
      sentAt := 0
      wireSize := 100
      frame := ⟨.reliableOrdered, 2, 0, n, n, 0, 1, 0, [7], 1⟩ }

/-- With a gap on both sides of every number, all three packets that arrived leave the list and the one that did not stays. -/
theorem sentAfterAck_eq_with_gaps :
    sentAfterAck (receiveAll {} [5, 1, 3]) (senderOf [1, 3, 4, 5]) 7 1 0 0 =
      some ((senderOf [1, 3, 4, 5]).sent.filter fun p => !decide (Covered (receiveAll {} [5, 1, 3]) p.packetNumber)) :=
  (sentAfterAck_eq_iff {} ⟨rfl, rfl⟩ [5, 1, 3] (by decide) (by decide) (senderOf [1, 3, 4, 5]) 7 1 0 0).2 (by decide)

/-- Packets one, two and three arrive and are acknowledged as one range: one and two stay in the sent list. -/
theorem sentAfterAck_keeps_covered :
    sentAfterAck (receiveAll {} [1, 2, 3]) (senderOf [1, 2, 3]) 7 1 0 0 = some (senderOf [1, 2]).sent ∧
      (∀ p ∈ (senderOf [1, 2, 3]).sent, Covered (receiveAll {} [1, 2, 3]) p.packetNumber) ∧
      sentAfterAck (receiveAll {} [1, 2, 3]) (senderOf [1, 2, 3]) 7 1 0 0 ≠
        some ((senderOf [1, 2, 3]).sent.filter fun p => !decide (Covered (receiveAll {} [1, 2, 3]) p.packetNumber)) := by
  decide

end Libft.Networking
