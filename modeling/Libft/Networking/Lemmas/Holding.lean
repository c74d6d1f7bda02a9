import Libft.Networking.Lemmas.Origins

/-!
# What becomes of a reliable frame

A reliable frame of the peer that a connection reads is in one of its records, among the messages that wait, or in a message that was
delivered, when the call ends: provided that there is memory, that a fragment which opens a record finds room for it, and that a message
which is dropped as old was delivered before. From then on it stays with the connection, unless its record expires, the connection is
aborted, or a message that waited is lost for want of memory.
-/

namespace Libft.Networking

open List Env

/-! ## Holding a frame -/

/-- A record has received the bytes of a frame. -/
def ReassemblyRecord.Has (r : ReassemblyRecord) (f : OutgoingFrame) : Prop :=
  r.messageId = f.messageId ∧
    (r.received.drop f.offset.toNat).take f.payload.length = replicate f.payload.length true ∧
    (r.payload.drop f.offset.toNat).take f.payload.length = f.payload

instance ReassemblyRecord.decidableHas (r : ReassemblyRecord) (f : OutgoingFrame) : Decidable (r.Has f) :=
  inferInstanceAs (Decidable (_ ∧ _))

/-- A message is the one that a frame belongs to, and has its bytes. -/
def ReceivedMessage.Has (M : ReceivedMessage) (f : OutgoingFrame) : Prop :=
  M.delivery = f.delivery ∧ M.channel = f.channel ∧ M.sequence = f.sequence ∧
    (M.payload.drop f.offset.toNat).take f.payload.length = f.payload

instance ReceivedMessage.decidableHas (M : ReceivedMessage) (f : OutgoingFrame) : Decidable (M.Has f) :=
  inferInstanceAs (Decidable (_ ∧ _))

/-- A connection holds a frame: it is stored in a record, its message waits, or its message was delivered. -/
def Core.Holds (c : Core) (f : OutgoingFrame) : Prop :=
  (∃ r ∈ c.reassembly, r.Has f) ∨ (∃ M ∈ c.orderedPending, M.Has f) ∨ ∃ M ∈ c.received, M.Has f

instance Core.decidableHolds (c : Core) (f : OutgoingFrame) : Decidable (c.Holds f) := inferInstanceAs (Decidable (_ ∨ _))

/-! ## Storing -/

section Storing

variable {cap : Nat} {m : QueuedMessage} {dlv : Delivery} {f : FrameBody} {r : ReassemblyRecord} {F : OutgoingFrame}

section

variable (h : Reassembles cap m r) (hf : Carries cap m dlv f.piece)

include h hf

/-- A piece of a message does not contradict a record of it. -/
theorem Reassembles.not_conflicts : r.conflicts f.fragmentOffset.toNat f.payload = false := by
  have hp : f.payload = (m.data.drop f.fragmentOffset.toNat).take f.payload.length := hf.payload
  rw [Bool.eq_false_iff]
  intro hc
  simp only [ReassemblyRecord.conflicts, any_eq_true, Bool.and_eq_true, decide_eq_true_eq, Prod.exists] at hc
  obtain ⟨mr, old, new, hm, rfl, hne⟩ := hc
  obtain ⟨i, hi⟩ := mem_iff_getElem?.1 hm
  obtain ⟨hmr, hbs⟩ := getElem?_zip_eq_some.1 hi
  obtain ⟨hold, hn⟩ := getElem?_zip_eq_some.1 hbs
  rw [getElem?_drop] at hmr hold
  -- where the record has received a byte it has that of the message, which is that of the piece
  have ha := h.agree _ hmr
  have hlt : i < f.payload.length := (List.getElem?_eq_some_iff.1 hn).1
  rw [hp, getElem?_take_of_lt hlt, getElem?_drop] at hn
  rw [hold, hn] at ha
  exact hne (Option.some.inj ha)

/-- A piece of a message passes the comparisons with a record of it. -/
theorem Reassembles.accepts (hs : r.sequence = f.sequence) :
    ¬(r.totalSize ≠ f.totalSize ∨ r.fragmentCount ≠ f.fragmentCount ∨ r.channel ≠ f.channel ∨ r.sequence ≠ f.sequence) ∧
      ¬r.payload.length < f.fragmentOffset.toNat + f.payload.length := by
  refine ⟨?_, Nat.not_lt.2 (h.payload_length ▸ hf.inside)⟩
  rintro (hne | hne | hne | hne)
  · exact hne (UInt32.toNat_inj.1 (h.totalSize.trans hf.totalSize.symm))
  · exact hne (h.fragmentCount.trans hf.fragmentCount.symm)
  · exact hne (h.channel.trans hf.channel.symm)
  · exact hne hs

/-- A byte that a record has received, or that is in the piece it stores, is received then. -/
theorem Reassembles.received_store {i : Nat} (hi : r.received[i]? = some true ∨
    f.fragmentOffset.toNat ≤ i ∧ i < f.fragmentOffset.toNat + f.payload.length) :
    (r.store f.fragmentOffset.toNat f.payload).received[i]? = some true := by
  have hs : f.fragmentOffset.toNat + f.payload.length ≤ m.data.length := hf.inside
  have hmr : f.fragmentOffset.toNat + (replicate f.payload.length true).length ≤ r.received.length := by
    rw [length_replicate, h.received_length]
    exact hs
  simp only [ReassemblyRecord.store, getElem?_overwrite hmr, length_replicate]
  split
  · rw [getElem?_replicate, if_pos (by omega)]
  · rename_i hno
    exact hi.resolve_right hno

end

/-- A record of a message has a frame of it when it has received its bytes. -/
theorem Reassembles.has_iff (h : Reassembles cap m r) (hF : Carries cap m dlv F.piece) : r.Has F ↔
    ∀ i, F.offset.toNat ≤ i → i < F.offset.toNat + F.payload.length → r.received[i]? = some true := by
  have hp : F.payload = (m.data.drop F.offset.toNat).take F.payload.length := hF.payload
  constructor
  · rintro ⟨-, hr, -⟩ i hle hlt
    have hi := congrArg (·[i - F.offset.toNat]?) hr
    simpa only [getElem?_take_of_lt (show i - F.offset.toNat < F.payload.length by omega), getElem?_drop,
      Nat.add_sub_cancel' hle, getElem?_replicate, if_pos (show i - F.offset.toNat < F.payload.length by omega)] using hi
  · intro hi
    have hin {j : Nat} (hj : j < F.payload.length) : r.received[F.offset.toNat + j]? = some true := hi _ (by omega) (by omega)
    refine ⟨h.messageId.trans hF.messageId.symm, ext_getElem? fun j => ?_, ext_getElem? fun j => ?_⟩
    · by_cases hj : j < F.payload.length
      · rw [getElem?_take_of_lt hj, getElem?_drop, hin hj, getElem?_replicate, if_pos hj]
      · rw [getElem?_take, if_neg hj, getElem?_replicate, if_neg hj]
    · by_cases hj : j < F.payload.length
      · rw [getElem?_take_of_lt hj, getElem?_drop, h.agree _ (hin hj)]
        conv_rhs => rw [hp, getElem?_take_of_lt hj, getElem?_drop]
      · rw [getElem?_take, if_neg hj, getElem?_eq_none (Nat.not_lt.1 hj)]

/-- A record that stores a piece has the frame with this piece. -/
theorem Reassembles.has_store (h : Reassembles cap m r) (hf : Carries cap m dlv f.piece) (hF : f.piece = F.piece) :
    (r.store f.fragmentOffset.toNat f.payload).Has F := by
  refine ((h.store hf).has_iff (hF ▸ hf)).2 fun i hle hlt => h.received_store hf (.inr ?_)
  rw [show f.fragmentOffset = F.offset from congrArg Piece.offset hF, show f.payload = F.payload from congrArg Piece.payload hF]
  exact ⟨hle, hlt⟩

/-- A received message that is the message of a piece has the frame with this piece. -/
theorem Carries.has {M : ReceivedMessage} (hf : Carries cap m F.delivery F.piece) (hreliable : isReliable F.delivery = true)
    (hM : IsOf m M) : M.Has F := by
  have hm : isReliable m.options.delivery = true := hf.delivery_eq ▸ hreliable
  refine ⟨hM.delivery_eq.trans hf.delivery_eq.symm, hM.channel.trans hf.channel.symm, (hM.sequence hm).trans (hf.sequence hm).symm, ?_⟩
  rw [hM.payload]
  exact hf.payload.symm

end Storing

/-! ## Processing -/

/-- There is memory for all that a frame may need. -/
def Env.allocates (e : Env) : Bool :=
  e.ok .channelState && e.ok .message && e.ok .received && e.ok .buffered && e.ok .reassembly

theorem Env.ok_of_allocates {e : Env} (h : e.allocates = true) : e.ok .channelState = true ∧ e.ok .message = true ∧
    e.ok .received = true ∧ e.ok .buffered = true ∧ e.ok .reassembly = true := by
  simpa only [allocates, Bool.and_eq_true, and_assoc] using h

/-- A frame that would open a record finds room for it. -/
def findsRoom (cfg : TransportConfig) (c : ConnectionRecord) (f : FrameBody) : Bool :=
  decide (f.fragmentCount = 1) || (c.reassembly.any fun record => record.messageId = f.messageId) ||
    !reassemblyFull cfg c f.totalSize.toNat

theorem findsRoom_congr {cfg : TransportConfig} {c c' : ConnectionRecord} {f : FrameBody} (h : SameRoom c c') :
    findsRoom cfg c' f = findsRoom cfg c f := by
  rw [findsRoom, findsRoom, h.reassembly, h.reassemblyFull_eq]

section Processing

variable {Γ : Ctx} {e : Env} {n : Node} {cap : Nat} {m : QueuedMessage} {dlv : Delivery}
  {f : FrameBody} {r : ReassemblyRecord} {F : OutgoingFrame} {M : ReceivedMessage}

/-- A message that is not above the number of its channel was delivered before. -/
def OldDelivered (m : QueuedMessage) (c : Core) : Prop :=
  m.sequence < c.cursor m.options.channel → ∃ M ∈ c.received, IsOf m M

section

variable (he : e.allocates = true) (hF : Carries cap m F.delivery F.piece) (hreliable : isReliable F.delivery = true)
  (hold : OldDelivered m (core n))

include he hF hreliable hold

/-- A frame whose message is delivered is held. -/
theorem holds_deliver (hM : IsOf m M) :
    (∃ M' ∈ (core (deliverAndNotify e n M)).orderedPending, M'.Has F) ∨
      ∃ M' ∈ (core (deliverAndNotify e n M)).received, M'.Has F := by
  obtain ⟨hl, -, hreceived, hb, -⟩ := ok_of_allocates he
  have hm : isReliable m.options.delivery = true := hF.delivery_eq ▸ hreliable
  rcases deliverAndNotify_settles (n := n) (hM.delivery_eq.trans (of_decide_eq_true hm)) hl hb hreceived with ⟨hw, hc⟩ | hw | hr
  · rw [hM.sequence hm, hM.channel] at hw
    obtain ⟨M', hM', hof⟩ := hold hw
    rw [hc]
    exact .inr ⟨M', hM', hF.has hreliable hof⟩
  · exact .inl ⟨M, hw, hF.has hreliable hM⟩
  · exact .inr ⟨M, hr, hF.has hreliable hM⟩

/-- A fragment that goes into the record of its message is held. -/
theorem holds_storeFragment (hf : f.piece = F.piece) {i : Nat}
    (hi : n.connection.reassembly[i]? = some r) (hr : Reassembles cap m r) : (core (storeFragment e n i r f).1).Holds F := by
  have hf' : Carries cap m F.delivery f.piece := hf ▸ hF
  have hm : isReliable m.options.delivery = true := hF.delivery_eq ▸ hreliable
  obtain ⟨hsm, hsz⟩ := hr.accepts hf' ((hr.sequence hm).trans (hf'.sequence hm).symm)
  have hg := (ok_of_allocates he).2.1
  have hs := hr.store hf'
  have hh := hr.has_store hf' hf
  have hlt : i < n.connection.reassembly.length := (List.getElem?_eq_some_iff.1 hi).1
  unfold storeFragment
  simp only [hsm, hsz, hr.not_conflicts hf', hg, if_false, Bool.false_eq_true, Bool.true_eq_false]
  split
  · exact .inl ⟨_, mem_set hlt _, hh⟩
  · rename_i hc
    exact .inr (holds_deliver he hF hreliable hold (hs.isOf (Decidable.not_not.1 hc) _))

/-- A fragment finds the record of its message, or opens it. -/
theorem holds_processFragment (hf : f.piece = F.piece)
    (hr : ∀ r ∈ n.connection.reassembly, r.messageId = m.messageId → Reassembles cap m r)
    (hc : f.fragmentCount ≠ 1) (hrm : findsRoom Γ.cfg n.connection f = true) : (core (processFragment Γ e n F.delivery f).1).Holds F := by
  have hid : f.messageId = m.messageId := (congrArg Piece.messageId hf).trans hF.messageId
  unfold processFragment
  dsimp only
  split
  · rename_i i hfn
    obtain ⟨hlt, hmt, -⟩ := findIdx?_eq_some_iff_getElem.1 hfn
    rw [getElem?_eq_getElem hlt]
    exact holds_storeFragment he hF hreliable hold hf (getElem?_eq_getElem hlt)
      (hr _ (getElem_mem hlt) ((of_decide_eq_true hmt).trans hid))
  · rename_i hfn
    have hfr : (n.connection.reassembly.any fun rec => rec.messageId = f.messageId) = false := by
      simpa [findIdx?_eq_none_iff] using hfn
    have hfl : reassemblyFull Γ.cfg n.connection f.totalSize.toNat = false := by
      simpa [findsRoom, hc, hfr] using hrm
    simp only [hfl, (ok_of_allocates he).2.2.2.2, Bool.false_eq_true, Bool.true_eq_false, if_false]
    have hf' : Carries cap m F.delivery f.piece := hf ▸ hF
    refine holds_storeFragment he hF hreliable ?_ hf (getElem?_concat_length) (hf'.reassembles Γ.cfg e.now)
    exact hold

/-- A frame whose number was recorded is held. -/
theorem holds_processPayload (hf : f.piece = F.piece)
    (hr : ∀ r ∈ n.connection.reassembly, r.messageId = m.messageId → Reassembles cap m r)
    (hrm : findsRoom Γ.cfg n.connection f = true) : (core (processPayload Γ e n F.delivery f).1).Holds F := by
  unfold processPayload
  split
  · rename_i hc
    simp only [(ok_of_allocates he).2.1, Bool.true_eq_false, if_false]
    exact .inr (holds_deliver he hF hreliable hold ((hf ▸ hF : Carries cap m F.delivery f.piece).isOf hc _))
  · rename_i hc
    exact holds_processFragment he hF hreliable hold hf hr hc hrm

end

end Processing

/-! ## Keeping a frame -/

/-- Of what a connection holds of reliable messages, a step with this label gives up nothing. -/
def Label.Retains : Label → Prop
  | .abort _ | .lose _ => False
  | .complete settled => settled = true
  | .expireRecords gone => ∀ r ∈ gone, isReliable r.delivery = false
  | _ => True

/-- A message that waits still does when the one that is next leaves, unless it is that one. -/
theorem mem_eraseP_or_find? {α : Type} {p : α → Bool} {l : List α} {a : α} (ha : a ∈ l) : a ∈ l.eraseP p ∨ l.find? p = some a := by
  induction l with
  | nil => cases ha
  | cons b l ih =>
    by_cases hb : p b = true
    · rw [eraseP_cons_of_pos hb, find?_cons_of_pos hb]
      exact (mem_cons.1 ha).symm.imp_right fun h => congrArg some h.symm
    · rw [eraseP_cons_of_neg hb, find?_cons_of_neg hb]
      rcases mem_cons.1 ha with rfl | ha
      · exact .inl mem_cons_self
      · exact (ih ha).imp_left (mem_cons_of_mem b)

section Keeping

variable {Γ : Ctx} {c c' : Core} {l : Label} {cap : Nat} {m : QueuedMessage} {F : OutgoingFrame} {r : ReassemblyRecord}

/-- A frame in a record is still held after a step that gives up nothing. -/
theorem ReassemblyRecord.Has.step (h : r.Has F) (hr : r ∈ c.reassembly) (hs : Step Γ c l c') (hl : l.Retains)
    (hF : Carries cap m F.delivery F.piece) (hreliable : isReliable F.delivery = true) (hof : Reassembles cap m r)
    (hst : ∀ f, l = .store f → f.messageId = m.messageId → ∃ dlv, Carries cap m dlv f.piece) (hold : OldDelivered m c) :
    c'.Holds F := by
  have hm : isReliable m.options.delivery = true := hF.delivery_eq ▸ hreliable
  cases hs with
  | abort => exact hl.elim
  | openRecord rec => exact .inl ⟨r, mem_append_left _ hr, h⟩
  | store i rec f hrec hid hsz =>
    obtain ⟨j, hj⟩ := mem_iff_getElem?.1 hr
    by_cases hji : i = j
    · -- the record itself: what it has received, it has received still
      obtain rfl : rec = r := Option.some.inj (hrec.symm.trans (hji ▸ hj))
      obtain ⟨dlv, hf⟩ := hst f rfl (hid.symm.trans hof.messageId)
      refine .inl ⟨_, mem_set (List.getElem?_eq_some_iff.1 hrec).1 _, ((hof.store hf).has_iff hF).2 fun k hle hlt => ?_⟩
      exact hof.received_store hf (.inl ((hof.has_iff hF).1 h k hle hlt))
    · exact .inl ⟨r, mem_of_getElem? ((getElem?_set_ne hji).trans hj), h⟩
  | complete i rec hrec settled hcount hsettled =>
    obtain ⟨j, hj⟩ := mem_iff_getElem?.1 hr
    by_cases hji : j = i
    · -- the record itself: its message is settled
      obtain rfl : rec = r := Option.some.inj (hrec.symm.trans (hji ▸ hj))
      obtain ⟨id, hse⟩ := hsettled hl (hof.delivery_eq.trans (of_decide_eq_true hm))
      have hM := hof.isOf hcount id
      rcases hse with hw | hw | hd
      · rw [hM.sequence hm, hM.channel] at hw
        obtain ⟨M, hM, hof⟩ := hold hw
        exact .inr (.inr ⟨M, hM, hF.has hreliable hof⟩)
      · exact .inr (.inl ⟨_, hw, hF.has hreliable hM⟩)
      · exact .inr (.inr ⟨_, hd, hF.has hreliable hM⟩)
    · exact .inl ⟨r, mem_eraseIdx_iff_getElem?.2 ⟨j, hji, hj⟩, h⟩
  | expireRecords expired =>
    refine .inl ⟨r, mem_filter.2 ⟨hr, ?_⟩, h⟩
    rw [Bool.not_eq_true', Bool.eq_false_iff]
    intro he
    have hno := hl r (mem_filter.2 ⟨hr, he⟩)
    rw [hof.delivery_eq, hm] at hno
    cases hno
  | _ => exact .inl ⟨r, hr, h⟩

/-- What a connection holds it still holds after a step that gives up nothing. -/
theorem Core.Holds.step (h : c.Holds F) (hs : Step Γ c l c') (hl : l.Retains) (hF : Carries cap m F.delivery F.piece)
    (hreliable : isReliable F.delivery = true) (hr : ∀ r ∈ c.reassembly, r.messageId = m.messageId → Reassembles cap m r)
    (hst : ∀ f, l = .store f → f.messageId = m.messageId → ∃ dlv, Carries cap m dlv f.piece) (hold : OldDelivered m c) :
    c'.Holds F := by
  rcases h with ⟨r, hm, h⟩ | ⟨M, hM, h⟩ | ⟨M, hM, h⟩
  · exact h.step hm hs hl hF hreliable (hr r hm (h.1.trans hF.messageId)) hst hold
  · cases hs with
    | abort | lose => exact hl.elim
    | buffer => exact .inr (.inl ⟨M, mem_append_left _ hM, h⟩)
    | release M' ch hfn =>
      rcases mem_eraseP_or_find? (p := c.isNext ch) hM with he | he
      · exact .inr (.inl ⟨M, he, h⟩)
      · obtain rfl := Option.some.inj (hfn.symm.trans he)
        exact .inr (.inr ⟨M', mem_append_right _ (mem_singleton_self M'), h⟩)
    | _ => exact .inr (.inl ⟨M, hM, h⟩)
  · cases hs with
    | hear | deliver | release => exact .inr (.inr ⟨M, mem_append_left _ hM, h⟩)
    | _ => exact .inr (.inr ⟨M, hM, h⟩)

end Keeping

/-! ## The datagram of a frame -/

/-- The frame that a datagram opens to. -/
def frameAt (Γ : Ctx) (e : Env) (n : Node) (data : Bytes) : Option FrameBody :=
  match openDatagram Γ e n .frame data with
  | .error _ => none
  | .ok (packet, _) => readFrame packet

section Frame

variable {Γ : Ctx} {e : Env} {n : Node} {src : Endpoint} {data : Bytes} {dlv : Delivery} {f : FrameBody}

theorem FrameOf.frameAt_eq (h : FrameOf Γ e n src data dlv f) : frameAt Γ e n data = some f := by
  obtain ⟨flag, pkt, ⟨-, n', ho⟩, hr, -⟩ := h.opens
  simp only [frameAt, ho, hr]

/-- The datagram of a frame is processed as the frame, by the connection that has recorded its number. -/
theorem FrameOf.processDatagram_eq (h : FrameOf Γ e n src data dlv f) :
    ∃ ch size, (processDatagram Γ e n src data).1 =
      (processPayload Γ e ((n.modify fun c => { c with secureChannel := ch }).modify (heard e size f)) dlv f).1 := by
  obtain ⟨flag, pkt, ⟨hh, n', ho⟩, hr, hd⟩ := h.opens
  obtain ⟨ch, rfl, -, -⟩ := openDatagram_eq_ok ho
  refine ⟨ch, pkt.length, ?_⟩
  have hp : ¬(n.connection.secureEnabled = false ∧ f.keyEpoch ≠ 0) := fun hand => hand.2 (h.plain hand.1)
  simp only [processDatagram, hh, ne_eq, not_true_eq_false, if_false, PacketType.isHandshake, Bool.false_eq_true,
    processPacket, h.state, h.remote, false_and, ho, processOpened, Node.modify_connection, processFrame, hr, hd,
    hp, h.inRange]
  rfl

theorem holds_processDatagram {cap : Nat} {m : QueuedMessage} {F : OutgoingFrame}
    (h : FrameOf Γ e n src data F.delivery f) (he : e.allocates = true) (hF : Carries cap m F.delivery F.piece)
    (hreliable : isReliable F.delivery = true) (hold : OldDelivered m (core n)) (hf : f.piece = F.piece)
    (hr : ∀ r ∈ n.connection.reassembly, r.messageId = m.messageId → Reassembles cap m r)
    (hrm : findsRoom Γ.cfg n.connection f = true) : (core (processDatagram Γ e n src data).1).Holds F := by
  obtain ⟨ch, size, hp⟩ := h.processDatagram_eq
  rw [hp]
  have hs := sameRoom_heard e size f (n.modify fun c => { c with secureChannel := ch }).connection
  refine holds_processPayload he hF hreliable ?_ hf ?_ ?_
  · rw [core_heard]
    exact hold
  · rw [Node.modify_connection, hs.reassembly]
    exact hr
  · exact (findsRoom_congr hs).trans hrm

end Frame

end Libft.Networking
