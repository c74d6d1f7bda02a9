import Libft.Lib.Collect
import Libft.Networking.Lemmas.Holding

/-!
# Records as collections of fragments

A record of a message of several fragments has marked the bytes of the fragments that have arrived, and no others; it is complete when
all of them have. Storing a fragment adds it to the collection, and delivers the message when it was the last.
-/

namespace Libft.Networking

open List Function Bool Nat ReassemblyRecord

/-! ## The inbox -/

/-- What delivering a message reads and changes: the messages for the application, those that wait for others, and the channels. -/
structure Inbox where
  received : List ReceivedMessage
  waiting : List ReceivedMessage
  channels : List ChannelState

/-- The inbox of a node. -/
def Node.inbox (n : Node) : Inbox := ⟨n.received, n.connection.orderedPending, n.connection.channels⟩

section Inbox

variable {e : Env} {n₁ n₂ : Node}

theorem inbox_eq_iff : n₁.inbox = n₂.inbox ↔ n₁.received = n₂.received ∧
    n₁.connection.orderedPending = n₂.connection.orderedPending ∧ n₁.connection.channels = n₂.connection.channels := by
  simp only [Node.inbox, Inbox.mk.injEq]

theorem inbox_releasePending_congr (ch : UInt32) (wt : Nat) : ∀ {n₁ n₂ : Node}, n₁.inbox = n₂.inbox →
    (releasePending e ch wt n₁).inbox = (releasePending e ch wt n₂).inbox := by
  induction wt with
  | zero => exact id
  | succ wt ih =>
    intro n₁ n₂ h
    obtain ⟨hr, hp, hc⟩ := inbox_eq_iff.1 h
    simp only [releasePending, hp, hc]
    split
    · exact h
    · apply ih
      by_cases hok : e.ok (.released wt) = true
      · simp [Node.inbox, Node.receiveMessage, Node.modify, hok, hr, hp, hc]
      · simp [Node.inbox, Node.modify, hok, hr, hp, hc]

theorem inbox_deliverReliable_congr (h : n₁.inbox = n₂.inbox) (M : ReceivedMessage) :
    (deliverReliable e n₁ M).inbox = (deliverReliable e n₂ M).inbox := by
  obtain ⟨hr, hp, hc⟩ := inbox_eq_iff.1 h
  simp only [deliverReliable, hc, hp]
  by_cases hold : M.sequence < (channelState n₂.connection.channels M.channel).nextReliableSequence
  · rw [if_pos hold, if_pos hold]
    exact h
  rw [if_neg hold, if_neg hold]
  by_cases he : (channelState n₂.connection.channels M.channel).nextReliableSequence < M.sequence
  · rw [if_pos he, if_pos he]
    by_cases hok : e.ok .buffered = true
    · rw [if_pos hok, if_pos hok]
      simp [Node.inbox, Node.modify, hr, hp, hc]
    · rw [if_neg hok, if_neg hok]
      exact h
  rw [if_neg he, if_neg he]
  by_cases hok : e.ok .received = false
  · rw [if_pos hok, if_pos hok]
    exact h
  · rw [if_neg hok, if_neg hok]
    apply inbox_releasePending_congr
    simp [Node.inbox, Node.receiveMessage, Node.modify, hr, hp, hc]

/-- Delivering looks at the inbox only. -/
theorem inbox_deliver_congr (h : n₁.inbox = n₂.inbox) (M : ReceivedMessage) : (deliver e n₁ M).inbox = (deliver e n₂ M).inbox := by
  obtain ⟨hr, hp, hc⟩ := inbox_eq_iff.1 h
  unfold deliver
  rw [hc]
  cases findChannelState (e.ok .channelState) n₂.connection.channels M.channel with
  | none => exact h
  | some channels =>
    have hs : (n₁.modify fun c => { c with channels := channels }).inbox =
        (n₂.modify fun c => { c with channels := channels }).inbox := inbox_eq_iff.2 ⟨hr, hp, rfl⟩
    cases M.delivery with
    | unreliableSequenced =>
      dsimp only
      by_cases hold : M.sequence ≤ (channelState channels M.channel).latestUnreliableSequence
      · rw [if_pos hold, if_pos hold]
        exact hs
      rw [if_neg hold, if_neg hold]
      by_cases hok : e.ok .received = true
      · rw [if_pos hok, if_pos hok]
        simp [Node.inbox, Node.receiveMessage, Node.modify, hr, hp]
      · rw [if_neg hok, if_neg hok]
        simp [Node.inbox, Node.modify, hr, hp]
    | unreliable =>
      dsimp only
      by_cases hok : e.ok .received = true
      · rw [if_pos hok, if_pos hok]
        simp [Node.inbox, Node.receiveMessage, Node.modify, hr, hp]
      · rw [if_neg hok, if_neg hok]
        exact hs
    | reliableOrdered => exact inbox_deliverReliable_congr hs M

theorem inbox_deliverAndNotify (e : Env) (n : Node) (M : ReceivedMessage) : (deliverAndNotify e n M).inbox = (deliver e n M).inbox := by
  unfold deliverAndNotify
  dsimp only
  split <;> rfl

end Inbox

/-! ## Fragments -/

/-- The frame with an index of a message, as its sender cuts it. -/
def QueuedMessage.part (cap : Nat) (m : QueuedMessage) (j : Nat) : OutgoingFrame :=
  fragment cap m.options m.messageId m.sequence 0 m.data j

/-- The number of frames of a message. -/
def QueuedMessage.parts (cap : Nat) (m : QueuedMessage) : Nat := fragmentCount cap m.data.length

/-- The message as its receiver has it. -/
def QueuedMessage.received (m : QueuedMessage) (id : UInt64) : ReceivedMessage :=
  ⟨id, m.options.channel, m.options.lane, m.options.delivery, m.sequence, m.data⟩

/-- A frame that was read is the one with an index of a message. -/
structure IsPart (cap : Nat) (m : QueuedMessage) (j : Nat) (f : FrameBody) : Prop where
  capacity_ne : cap ≠ 0
  size : m.data.length < 2 ^ 32
  count : m.parts cap ≤ 255
  index_lt : j < m.parts cap
  piece : f.piece = (m.part cap j).piece
  lane : f.lane = m.options.lane

section Parts

variable {cap : Nat} {m : QueuedMessage} {j : Nat} {f : FrameBody}

section

variable (h : IsPart cap m j f)

include h

theorem IsPart.carries : Carries cap m m.options.delivery f.piece := by
  rw [h.piece]
  exact carries_fragment h.capacity_ne h.size h.count h.index_lt fun _ => rfl

theorem IsPart.sequence : f.sequence = m.sequence := congrArg Piece.sequence h.piece

theorem IsPart.offset : f.fragmentOffset.toNat = j * cap := by
  have ho : f.fragmentOffset = UInt32.ofNat (j * cap) := congrArg Piece.offset h.piece
  rw [ho]
  exact UInt32.toNat_ofNat_of_lt' (lt_of_le_of_lt (index_mul_le h.capacity_ne h.index_lt) h.size)

theorem IsPart.length_payload : f.payload.length = min cap (m.data.length - j * cap) := by
  have hp : f.payload = (m.data.drop (j * cap)).take cap := congrArg Piece.payload h.piece
  rw [hp, length_take, length_drop]

/-- Whether a frame is all of its message. -/
theorem IsPart.fragmentCount_eq_one : f.fragmentCount = 1 ↔ m.parts cap = 1 := by
  have hb : f.fragmentCount = UInt8.ofNat (m.parts cap) := congrArg Piece.fragmentCount h.piece
  have hlt : m.parts cap < 256 := lt_of_le_of_lt h.count (by decide)
  rw [hb, ← UInt8.toNat_inj, UInt8.toNat_ofNat_of_lt' hlt]
  rfl

end

/-- The frames of a message of several start before its end. -/
theorem lt_parts_iff (hc : cap ≠ 0) (hs : m.parts cap ≠ 1) : j < m.parts cap ↔ j * cap < m.data.length := by
  have hpos := pos_of_ne_zero hc
  have hp : m.parts cap = (m.data.length + cap - 1) / cap := by
    unfold QueuedMessage.parts fragmentCount at hs ⊢
    omega
  rw [hp, lt_iff_add_one_le, le_div_iff_mul_le hpos, succ_mul]
  omega

/-- The bytes of the frame with an index. -/
theorem IsPart.inside_iff (h : IsPart cap m j f) {i : Nat} (hi : i < m.data.length) :
    (f.fragmentOffset.toNat ≤ i ∧ i < f.fragmentOffset.toNat + f.payload.length) ↔ i / cap = j := by
  have hp := Nat.pos_of_ne_zero h.capacity_ne
  rw [h.offset, h.length_payload, Nat.div_eq_iff hp]
  omega

end Parts

/-! ## Collections -/

/-- A record of a message of several frames that has received those with certain indices, and nothing else. -/
structure Collected (cap : Nat) (m : QueuedMessage) (parts : Finset ℕ) (r : ReassemblyRecord) : Prop
    extends Reassembles cap m r where
  several : m.parts cap ≠ 1
  lane : r.lane = m.options.lane
  sequence_eq : r.sequence = m.sequence
  marks : ∀ i : Nat, i < m.data.length → r.received[i]? = some (decide (i / cap ∈ parts))

section Collected

variable {cap : Nat} {m : QueuedMessage} {j : Nat} {f : FrameBody} {parts : Finset ℕ} {r : ReassemblyRecord}

/-- The record that a fragment opens has nothing yet. -/
theorem IsPart.collected (h : IsPart cap m j f) (hs : m.parts cap ≠ 1) (cfg : TransportConfig) (now : UInt64) :
    Collected cap m ∅ (ofFrame cfg now m.options.delivery f) where
  toReassembles := h.carries.reassembles cfg now
  several := hs
  lane := h.lane
  sequence_eq := h.sequence
  marks i hi := by
    have hlt : i < f.totalSize.toNat := hi.trans_eq (h.carries.totalSize).symm
    simp [ofFrame, hlt]

theorem Collected.store (h : Collected cap m parts r) (hf : IsPart cap m j f) :
    Collected cap m (insert j parts) (r.store f.fragmentOffset.toNat f.payload) where
  toReassembles := h.toReassembles.store hf.carries
  several := h.several
  lane := h.lane
  sequence_eq := h.sequence_eq
  marks i hi := by
    have hs : f.fragmentOffset.toNat + f.payload.length ≤ m.data.length := hf.carries.inside
    have hl : f.fragmentOffset.toNat + (List.replicate f.payload.length true).length ≤ r.received.length := by
      rw [length_replicate, h.received_length]
      exact hs
    simp only [ReassemblyRecord.store, getElem?_overwrite hl, length_replicate, hf.inside_iff hi]
    by_cases hidx : i / cap = j
    · have hin := (hf.inside_iff hi).2 hidx
      rw [if_pos hidx, getElem?_replicate_of_lt (by omega), hidx, decide_eq_true (Finset.mem_insert_self _ _)]
    · rw [if_neg hidx, h.marks i hi]
      simp [hidx]

/-- A record is complete when all frames of its message have arrived. -/
theorem Collected.complete_iff (h : Collected cap m parts r) (hc : cap ≠ 0) :
    r.receivedCount = r.totalSize.toNat ↔ Finset.range (m.parts cap) ⊆ parts := by
  have hp := pos_of_ne_zero hc
  rw [h.count, h.totalSize, ← h.received_length, count_eq_length]
  constructor
  · intro ha j hx
    have hs := (lt_parts_iff hc h.several).1 (Finset.mem_range.1 hx)
    have hmr := h.marks _ hs
    rw [Nat.mul_div_cancel _ hp] at hmr
    exact of_decide_eq_true (ha _ (mem_of_getElem? hmr)).symm
  · intro ha mark hmr
    obtain ⟨i, hi⟩ := mem_iff_getElem?.1 hmr
    have hlt : i < m.data.length := h.received_length ▸ (List.getElem?_eq_some_iff.1 hi).1
    rw [h.marks i hlt] at hi
    have hx : i / cap < m.parts cap := (lt_parts_iff hc h.several).2 ((div_mul_le_self i cap).trans_lt hlt)
    rw [← Option.some.inj hi, decide_eq_true (ha (Finset.mem_range.2 hx))]

/-- The message of a complete record. -/
theorem Collected.message_eq (h : Collected cap m parts r) (hc : r.receivedCount = r.totalSize.toNat) (id : UInt64) :
    r.message id = m.received id := by
  simp only [message, QueuedMessage.received, h.channel, h.lane, h.delivery_eq, h.sequence_eq, h.toReassembles.payload_eq hc]

/-- A node after a fragment went into the record at a place. -/
def Node.stored (n : Node) (place : Nat) (r : ReassemblyRecord) : Node :=
  n.modify fun c => { c with
    reassembly := c.reassembly.set place r
    statistics := { c.statistics with fragmentsReassembled := c.statistics.fragmentsReassembled + 1 } }

@[simp] theorem Node.inbox_stored (n : Node) (place : Nat) (r : ReassemblyRecord) : (n.stored place r).inbox = n.inbox := rfl

/-- A fragment is not refused by the record of its message. -/
theorem Collected.storeFragment_eq (h : Collected cap m parts r) (hf : IsPart cap m j f) {e : Env} {n : Node}
    {place : Nat} (hmem : e.ok .message = true) :
    (storeFragment e n place r f).1 =
      let r' := r.store f.fragmentOffset.toNat f.payload
      if Finset.range (m.parts cap) ⊆ insert j parts then
        (deliverAndNotify e (n.stored place r') (m.received n.connection.id)).modify (completeRecord place r')
      else n.stored place r' := by
  have hcr := hf.carries
  obtain ⟨hsm, hsz⟩ := h.accepts hcr (h.sequence_eq.trans hf.sequence.symm)
  have hs := h.store hf
  have hc := hs.complete_iff hf.capacity_ne
  unfold storeFragment
  simp only [hsm, hsz, h.not_conflicts hcr, hmem, if_false, false_eq_true, true_eq_false, ne_eq, hc]
  by_cases hall : Finset.range (m.parts cap) ⊆ insert j parts
  · simp only [hall, not_true_eq_false, if_false, if_true]
    rw [hs.message_eq (hc.2 hall)]
    rfl
  · simp only [hall, not_false_eq_true, if_true, if_false]
    rfl

end Collected

/-- Delivering leaves the records alone. -/
theorem reassembly_deliverAndNotify (Γ : Ctx) (e : Env) (n : Node) (M : ReceivedMessage) :
    (deliverAndNotify e n M).connection.reassembly = n.connection.reassembly :=
  Delivers.reassembly_eq (performs_deliverAndNotify (Γ := Γ) (e := e) (.inl rfl : (core n).Origin true M))

/-! ## All records -/

/-- The records of a connection, against a collector of the frames of messages: each record has what has arrived of its message since it
was handed over last, and of a message without a record nothing has. -/
structure Tracks (cap : Nat) (ms : List QueuedMessage) (s : QueuedMessage → Finset ℕ)
    (rcs : List ReassemblyRecord) : Prop where
  unique : ∀ m ∈ ms, ∀ m' ∈ ms, m.messageId = m'.messageId → m = m'
  nodup : (rcs.map ReassemblyRecord.messageId).Nodup
  record : ∀ r ∈ rcs, ∃ m ∈ ms, Collected cap m (s m) r
  missing : ∀ m ∈ ms, (∀ r ∈ rcs, r.messageId ≠ m.messageId) → s m = ∅

namespace Tracks

variable {cap : Nat} {ms : List QueuedMessage} {s : QueuedMessage → Finset ℕ} {rcs : List ReassemblyRecord}
  {m : QueuedMessage} {r r' : ReassemblyRecord} {place : Nat} {parts : Finset ℕ}

/-- The record with the id of a message is that of the message. -/
theorem collected (h : Tracks cap ms s rcs) (hm : m ∈ ms) (hr : r ∈ rcs)
    (hid : r.messageId = m.messageId) : Collected cap m (s m) r := by
  obtain ⟨m', hm', hc⟩ := h.record r hr
  obtain rfl := h.unique m' hm' m hm (hc.messageId.symm.trans hid)
  exact hc

/-- The records besides the one at a place, which have other ids. -/
theorem of_mem_eraseIdx (h : Tracks cap ms s rcs) (hr : rcs[place]? = some r) :
    ∀ x ∈ rcs.eraseIdx place, x ∈ rcs ∧ x.messageId ≠ r.messageId := by
  obtain ⟨hp, rfl⟩ := List.getElem?_eq_some_iff.1 hr
  have hnd := ((getElem_cons_eraseIdx_perm hp).map messageId).nodup_iff.2 h.nodup
  rw [map_cons, nodup_cons] at hnd
  intro x hx
  exact ⟨mem_of_mem_eraseIdx hx, fun hid => hnd.1 (mem_map.2 ⟨x, hx, hid⟩)⟩

theorem nodup_eraseIdx (h : Tracks cap ms s rcs) : ((rcs.eraseIdx place).map messageId).Nodup :=
  h.nodup.sublist ((eraseIdx_sublist rcs place).map messageId)

/-- A record is the one at a place, or one of the others. -/
theorem eq_or_mem_eraseIdx (hr : rcs[place]? = some r) {x : ReassemblyRecord} (hx : x ∈ rcs) :
    x = r ∨ x ∈ rcs.eraseIdx place := by
  obtain ⟨hp, rfl⟩ := List.getElem?_eq_some_iff.1 hr
  exact mem_cons.1 ((getElem_cons_eraseIdx_perm hp).mem_iff.2 hx)

section

variable (h : Tracks cap ms s rcs)

include h

/-- The messages of the other records are other messages. -/
theorem record_update (hr : rcs[place]? = some r) (hid : r.messageId = m.messageId)
    (parts : Finset ℕ) : ∀ x ∈ rcs.eraseIdx place, ∃ m' ∈ ms, Collected cap m' (update s m parts m') x := by
  intro x hx
  obtain ⟨hrec, ho⟩ := h.of_mem_eraseIdx hr x hx
  obtain ⟨m', hm', hc⟩ := h.record x hrec
  have hne : m' ≠ m := by
    rintro rfl
    exact ho (hc.messageId.trans hid.symm)
  exact ⟨m', hm', by rwa [update_of_ne hne]⟩

/-- A record of a message is replaced by one with other frames of it. -/
theorem set (hm : m ∈ ms) (hr : rcs[place]? = some r) (hid : r.messageId = m.messageId) (hr' : Collected cap m parts r') :
    Tracks cap ms (update s m parts) (rcs.set place r') := by
  have hp := (List.getElem?_eq_some_iff.1 hr).1
  have hpr := set_perm_cons_eraseIdx hp r'
  refine ⟨h.unique, ?_, fun x hx => ?_, fun m' hm' hno => ?_⟩
  · rw [(hpr.map messageId).nodup_iff, map_cons, nodup_cons]
    refine ⟨fun hin => ?_, h.nodup_eraseIdx⟩
    obtain ⟨x, hx, hd⟩ := mem_map.1 hin
    exact (h.of_mem_eraseIdx hr x hx).2 (hd.trans (hr'.messageId.trans hid.symm))
  · rcases mem_cons.1 (hpr.mem_iff.1 hx) with rfl | hold
    · exact ⟨m, hm, by rwa [update_self]⟩
    · exact h.record_update hr hid parts x hold
  · have hmem : r' ∈ rcs.set place r' := hpr.mem_iff.2 mem_cons_self
    have ho : m.messageId ≠ m'.messageId := hr'.messageId ▸ hno r' hmem
    have hne : m' ≠ m := fun heq => ho (heq ▸ rfl)
    rw [update_of_ne hne]
    refine h.missing m' hm' fun x hx => ?_
    rcases eq_or_mem_eraseIdx hr hx with rfl | hold
    · exact hid ▸ ho
    · exact hno x (hpr.mem_iff.2 (mem_cons_of_mem _ hold))

/-- The record of a message goes. -/
theorem eraseIdx (hm : m ∈ ms) (hr : rcs[place]? = some r)
    (hid : r.messageId = m.messageId) : Tracks cap ms (update s m ∅) (rcs.eraseIdx place) := by
  refine ⟨h.unique, h.nodup_eraseIdx, h.record_update hr hid ∅, fun m' hm' hno => ?_⟩
  by_cases heq : m' = m
  · rw [heq, update_self]
  · rw [update_of_ne heq]
    refine h.missing m' hm' fun x hx => ?_
    rcases eq_or_mem_eraseIdx hr hx with rfl | hold
    · exact fun hs => heq (h.unique m' hm' m hm (hs.symm.trans hid))
    · exact hno x hold

/-- A record is opened for a message that has none. -/
theorem append (hm : m ∈ ms) (hno : ∀ r ∈ rcs, r.messageId ≠ m.messageId)
    (hr : Collected cap m ∅ r) : Tracks cap ms s (rcs ++ [r]) := by
  have hn := h.missing m hm hno
  refine ⟨h.unique, ?_, fun x hx => ?_, fun m' hm' hn' => h.missing m' hm' fun x hx => hn' x (mem_append_left _ hx)⟩
  · rw [map_append, nodup_append]
    refine ⟨h.nodup, nodup_singleton _, ?_⟩
    intro id ho id' hnew heq
    obtain ⟨x, hx, rfl⟩ := mem_map.1 ho
    rw [map_cons, map_nil, mem_singleton, hr.messageId] at hnew
    exact hno x hx (heq.trans hnew)
  · rcases mem_append.1 hx with ho | hnew
    · exact h.record x ho
    · exact ⟨m, hm, by rw [mem_singleton.1 hnew, hn]; exact hr⟩

/-- A message of one frame is never in a record. -/
theorem eq_empty (hm : m ∈ ms) (hs : m.parts cap = 1) : s m = ∅ :=
  h.missing m hm fun _ hr hid => (h.collected hm hr hid).several hs

end

end Tracks

/-! ## Processing -/

/-- What a frame of a message does: the one that completes the message delivers it, and every other one only adds to the collection. -/
structure Collects (cap : Nat) (ms : List QueuedMessage) (s : QueuedMessage → Finset ℕ) (e : Env) (n n' : Node)
    (m : QueuedMessage) (j : Nat) : Prop where
  inbox : n'.inbox = if Completes (QueuedMessage.parts cap) s (m, j) then (deliver e n (m.received n.connection.id)).inbox
    else n.inbox
  tracks : Tracks cap ms (collect (QueuedMessage.parts cap) s (m, j)) n'.connection.reassembly

section Processing

variable {Γ : Ctx} {e : Env} {n n₀ : Node} {cap : Nat} {ms : List QueuedMessage} {s : QueuedMessage → Finset ℕ}
  {m : QueuedMessage} {j place : Nat} {f : FrameBody} {r : ReassemblyRecord}

/-- What delivering does not look at may have been different. -/
theorem Collects.congr {n' : Node} (h : Collects cap ms s e n₀ n' m j) (hi : n₀.inbox = n.inbox)
    (hid : n₀.connection.id = n.connection.id) : Collects cap ms s e n n' m j := by
  refine ⟨?_, h.tracks⟩
  rw [h.inbox, hid, inbox_deliver_congr hi, hi]

theorem collects_storeFragment (Γ : Ctx) (h : Tracks cap ms s n.connection.reassembly) (hm : m ∈ ms)
    (hf : IsPart cap m j f) (hr : n.connection.reassembly[place]? = some r) (hid : r.messageId = m.messageId)
    (hmem : e.ok .message = true) : Collects cap ms s e n (storeFragment e n place r f).1 m j := by
  have hc := h.collected hm (mem_of_getElem? hr) hid
  rw [hc.storeFragment_eq hf hmem]
  by_cases hall : Finset.range (m.parts cap) ⊆ insert j (s m)
  · have hcm : Completes (QueuedMessage.parts cap) s (m, j) := hall
    rw [if_pos hall]
    refine ⟨?_, ?_⟩
    · rw [if_pos hcm]
      exact (inbox_deliverAndNotify e _ _).trans (inbox_deliver_congr (n.inbox_stored place _) _)
    · rw [collect, if_pos hcm]
      have hrc : ((deliverAndNotify e (n.stored place (r.store f.fragmentOffset.toNat f.payload))
          (m.received n.connection.id)).connection.reassembly).eraseIdx place = n.connection.reassembly.eraseIdx place := by
        rw [reassembly_deliverAndNotify Γ]
        exact eraseIdx_set_eq
      have hl := h.eraseIdx hm hr hid
      rwa [← hrc] at hl
  · have hi : ¬Completes (QueuedMessage.parts cap) s (m, j) := hall
    rw [if_neg hall]
    refine ⟨?_, ?_⟩
    · rw [if_neg hi]
      rfl
    · rw [collect, if_neg hi]
      exact h.set hm hr hid (hc.store hf)

section

variable (h : Tracks cap ms s n.connection.reassembly) (hm : m ∈ ms)

include h hm

/-- A fragment finds the record of its message, or opens it. -/
theorem collects_processFragment
    (hf : IsPart cap m j f) (he : e.allocates = true) (hc : f.fragmentCount ≠ 1)
    (hr : findsRoom Γ.cfg n.connection f = true) :
    Collects cap ms s e n (processFragment Γ e n m.options.delivery f).1 m j := by
  have hid : f.messageId = m.messageId := hf.carries.messageId
  have hs : m.parts cap ≠ 1 := fun ho => hc (hf.fragmentCount_eq_one.2 ho)
  obtain ⟨-, hg, -, -, hmem⟩ := Env.ok_of_allocates he
  unfold processFragment
  dsimp only
  split
  · rename_i place hfn
    obtain ⟨hlt, hmt, -⟩ := findIdx?_eq_some_iff_getElem.1 hfn
    rw [getElem?_eq_getElem hlt]
    exact collects_storeFragment Γ h hm hf (getElem?_eq_getElem hlt) ((of_decide_eq_true hmt).trans hid) hg
  · rename_i hfn
    have hfr : ∀ r ∈ n.connection.reassembly, r.messageId ≠ m.messageId := by
      simpa [findIdx?_eq_none_iff, hid] using hfn
    have hfl : reassemblyFull Γ.cfg n.connection f.totalSize.toNat = false := by
      have hno : (n.connection.reassembly.any fun rec => rec.messageId = f.messageId) = false := by
        simpa [hid] using hfr
      simpa [findsRoom, hc, hno] using hr
    simp only [hfl, hmem, false_eq_true, true_eq_false, if_false]
    refine (collects_storeFragment Γ ?_ hm hf (getElem?_concat_length) hid hg).congr rfl rfl
    exact h.append hm hfr (hf.collected hs Γ.cfg e.now)

/-- A frame of a message that is read and whose number was recorded. -/
theorem collects_processPayload (hf : IsPart cap m j f) (he : e.allocates = true) (hrm : findsRoom Γ.cfg n.connection f = true) :
    Collects cap ms s e n (processPayload Γ e n m.options.delivery f).1 m j := by
  unfold processPayload
  split
  · rename_i ht
    have hs : m.parts cap = 1 := hf.fragmentCount_eq_one.1 ht
    have hi : j = 0 := lt_one_iff.1 (hs ▸ hf.index_lt)
    have hc : Completes (QueuedMessage.parts cap) s (m, j) := by
      simp [Completes, hs, hi]
    have hg := (Env.ok_of_allocates he).2.1
    have hr : f.message m.options.delivery n.connection.id = m.received n.connection.id := by
      have hch : f.channel = m.options.channel := hf.carries.channel
      have hp : f.payload = m.data := hf.carries.whole ht
      simp only [FrameBody.message, QueuedMessage.received, hch, hf.lane, hf.sequence, hp]
    rw [hg, hr]
    simp only [true_eq_false, if_false]
    refine ⟨?_, ?_⟩
    · rw [if_pos hc, inbox_deliverAndNotify]
    · rw [collect, if_pos hc, reassembly_deliverAndNotify Γ, ← h.eq_empty hm hs, update_eq_self]
      exact h
  · rename_i ht
    exact collects_processFragment h hm hf he ht hrm

/-- The datagram of a frame of a message. -/
theorem collects_processDatagram {src : Endpoint} {data : Bytes} (hd : FrameOf Γ e n src data m.options.delivery f) (hf : IsPart cap m j f)
    (he : e.allocates = true) (hr : findsRoom Γ.cfg n.connection f = true) :
    Collects cap ms s e n (processDatagram Γ e n src data).1 m j := by
  obtain ⟨ch, size, hp⟩ := hd.processDatagram_eq
  rw [hp]
  have hs := sameRoom_heard e size f (n.modify fun c => { c with secureChannel := ch }).connection
  have hc := core_heard e size f (n.modify fun c => { c with secureChannel := ch })
  refine (collects_processPayload ?_ hm hf he ((findsRoom_congr hs).trans hr)).congr ?_ (congrArg Core.id hc)
  · rw [Node.modify_connection, hs.reassembly]
    exact h
  · exact inbox_eq_iff.2 ⟨rfl, congrArg Core.orderedPending hc, hs.channels⟩

end

end Processing

end Libft.Networking
