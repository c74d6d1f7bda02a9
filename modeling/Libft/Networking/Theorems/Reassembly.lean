import Libft.Networking.Lemmas.Collecting

/-!
# Reassembly

The frames of several messages arrive in any order, with duplicates. A message is handed over when the last frame arrives that was
missing since it was handed over last, as it was sent, and no other frame hands anything over.
-/

namespace Libft.Networking

open List Bool QueuedMessage

/-! ## Arrivals -/

/-- The frame with an index of a message arrives, in a datagram. -/
structure FrameArrival where
  message : QueuedMessage
  index : Nat
  source : Endpoint
  data : Bytes
  env : Env

namespace FrameArrival

/-- The call that an arrival is. -/
def input (a : FrameArrival) : Input := ⟨.process a.source a.data, a.env⟩

/-- Which part of which message arrives. -/
def key (a : FrameArrival) : QueuedMessage × ℕ := (a.message, a.index)

end FrameArrival

/-- The datagram opens to a frame that `send_connection_message` has queued for the message, as `encode_frame` writes it under some
number, and with some acknowledgement of the kind that a connection sends. -/
def OpensToFrame (Γ : Ctx) (capacity : Nat) (n : Node) (a : FrameArrival) : Prop :=
  ∃ now number epoch largest ranges frame,
    (fragments capacity a.message.options a.message.messageId a.message.sequence now a.message.data)[a.index]? = some frame ∧
    ranges.length ≤ ackRangeLimit ∧ (∀ range ∈ ranges, range.start ≤ range.end_) ∧
    (n.connection.secureEnabled = false → epoch = 0) ∧
    Opens Γ a.env n a.data .frame frame.delivery.toByte (framePacket frame n.connection.id number epoch largest ranges)

/-- There is room for the record of a message, if it needs one and has none. -/
def RoomFor (Γ : Ctx) (capacity : Nat) (n : Node) (m : QueuedMessage) : Prop :=
  m.parts capacity = 1 ∨ (∃ r ∈ n.connection.reassembly, r.messageId = m.messageId) ∨
    reassemblyFull Γ.cfg n.connection m.data.length = false

/-- A frame of one of the messages arrives at a connection that reads it, within the limits of reassembly. -/
structure Arrives (Γ : Ctx) (capacity : Nat) (messages : List QueuedMessage) (n : Node) (a : FrameArrival) : Prop where
  message : a.message ∈ messages
  remote : n.connection.remote = a.source
  state : n.connection.state = .connected
  opens : OpensToFrame Γ capacity n a
  room : RoomFor Γ capacity n a.message
  memory : a.env.allocates = true

/-- The messages that a connection may be sent: of at most 255 frames, of a size that it takes, and with different ids. -/
structure Sendable (Γ : Ctx) (capacity : Nat) (messages : List QueuedMessage) : Prop where
  capacity_ne : capacity ≠ 0
  capacity_le : capacity ≤ 65535
  count : ∀ m ∈ messages, m.parts capacity ≤ 255
  size : ∀ m ∈ messages, m.data.length ≤ Γ.cfg.maximumMessageSize.toNat
  unique : ∀ m ∈ messages, ∀ m' ∈ messages, m.messageId = m'.messageId → m = m'

section Arriving

variable {Γ : Ctx} {capacity : Nat} {messages : List QueuedMessage} {n : Node} {a : FrameArrival} {s : QueuedMessage → Finset ℕ}
  {m : QueuedMessage} {index : Nat} {f : FrameBody}

/-- The sizes of a frame that was sent fit together. -/
theorem inRange_of_isPart (hf : IsPart capacity m index f)
    (hm : m.data.length ≤ Γ.cfg.maximumMessageSize.toNat) (hy : f.payloadSize.toNat = f.payload.length) :
    f.outOfRange Γ.cfg = false := by
  have ht : f.totalSize.toNat = m.data.length := hf.carries.totalSize
  have hi : f.fragmentOffset.toNat + f.payload.length ≤ m.data.length := hf.carries.inside
  have hr : f.payload.length ≤ f.rest.length := length_take_le' _ _
  have hc : f.fragmentCount ≠ 0 := by
    intro hz
    have hb : UInt8.ofNat (m.parts capacity) = 0 := (congrArg Piece.fragmentCount hf.piece).symm.trans hz
    have hp := congrArg UInt8.toNat hb
    rw [UInt8.toNat_ofNat_of_lt' (hf.count.trans_lt (by decide))] at hp
    exact Nat.not_lt_zero _ (hp ▸ hf.index_lt)
  simp only [FrameBody.outOfRange, or_eq_false_iff, decide_eq_false_iff_not, UInt32.lt_iff_toNat_lt, hy, ht]
  exact ⟨⟨⟨⟨by omega, by omega⟩, hc⟩, by omega⟩, by omega⟩

/-- A frame finds room if its message has it. -/
theorem findsRoom_of_isPart (hf : IsPart capacity m index f) (hr : RoomFor Γ capacity n m) : findsRoom Γ.cfg n.connection f = true := by
  have ht : f.totalSize.toNat = m.data.length := hf.carries.totalSize
  have hid : f.messageId = m.messageId := hf.carries.messageId
  simp only [findsRoom, or_eq_true, decide_eq_true_eq, not_eq_true', ht, hid, hf.fragmentCount_eq_one, any_eq_true]
  rcases hr with hs | hrec | hfr
  · exact .inl (.inl hs)
  · exact .inl (.inr hrec)
  · exact .inr hfr

/-- What arrives is read as the frame that was sent. -/
theorem Arrives.frameOf (h : Arrives Γ capacity messages n a) (hms : Sendable Γ capacity messages) :
    ∃ f, FrameOf Γ a.env n a.source a.data a.message.options.delivery f ∧ IsPart capacity a.message a.index f ∧
      findsRoom Γ.cfg n.connection f = true := by
  obtain ⟨now, nm, ep, l, r, frame, hfr, hn, hrgs, he, ho⟩ := h.opens
  obtain ⟨hi, rfl⟩ := List.getElem?_eq_some_iff.1 hfr
  simp only [fragments, length_map, length_range] at hi
  simp only [fragments, getElem_map, getElem_range] at ho
  have hm := hms.size _ h.message
  have hsz : a.message.data.length < 2 ^ 32 := hm.trans_lt (UInt32.toNat_lt _)
  have hy : (fragment capacity a.message.options a.message.messageId a.message.sequence now a.message.data
      a.index).payload.length ≤ 65535 := (length_take_le _ _).trans hms.capacity_le
  have hr := readFrame_framePacket (fragment capacity a.message.options a.message.messageId a.message.sequence now
    a.message.data a.index) n.connection.id nm ep l hn hrgs
  obtain ⟨hp, -, hl⟩ := readFrame_eq_some hr hy
  generalize hf : FrameBody.mk .. = f at hr hp hl
  have hpr : IsPart capacity a.message a.index f := ⟨hms.capacity_ne, hsz, hms.count _ h.message, hi, hp, hl⟩
  refine ⟨f, ⟨h.remote, h.state, ⟨_, _, ho, hr, Delivery.ofByte?_toByte _⟩, fun hpl => ?_, ?_⟩, hpr, ?_⟩
  · rw [← hf]
    exact he hpl
  · refine inRange_of_isPart hpr hm ?_
    have hs := congrArg Piece.payload hp
    simp only [FrameBody.piece, OutgoingFrame.piece] at hs
    rw [hs, ← hf]
    exact UInt16.toNat_ofNat_of_lt' (Nat.lt_succ_of_le hy)
  · exact findsRoom_of_isPart hpr h.room

/-- An arrival adds to the collection of its message, or delivers it. -/
theorem Arrives.collects (h : Arrives Γ capacity messages n a) (hms : Sendable Γ capacity messages)
    (ht : Tracks capacity messages s n.connection.reassembly) :
    Collects capacity messages s a.env n (step Γ n a.input) a.message a.index := by
  obtain ⟨f, hd, hf, hr⟩ := h.frameOf hms
  exact collects_processDatagram ht h.message hd hf h.memory hr

/-- The last arrival of a run comes to where the others lead. -/
theorem arrives_last {arr : List FrameArrival}
    (ha : Meets (fun n a => step Γ n a.input) (Arrives Γ capacity messages) n (arr ++ [a])) :
    Arrives Γ capacity messages (run Γ n (arr.map FrameArrival.input)) a := by
  rw [run, foldl_map]
  exact ha.last

/-- The records after a run of arrivals are what has been collected. -/
theorem tracks_run (hms : Sendable Γ capacity messages) (hn : n.connection.reassembly = []) (arr : List FrameArrival)
    (ha : Meets (fun n a => step Γ n a.input) (Arrives Γ capacity messages) n arr) :
    Tracks capacity messages (collected (parts capacity) (arr.map FrameArrival.key))
      (run Γ n (arr.map FrameArrival.input)).connection.reassembly := by
  induction arr using List.reverseRecOn with
  | nil =>
    rw [map_nil, map_nil]
    refine ⟨hms.unique, ?_, fun r hr => ?_, fun _ _ _ => rfl⟩
    · rw [run, foldl_nil, hn]
      exact nodup_nil
    · rw [run, foldl_nil, hn] at hr
      cases hr
  | append_singleton arr a ih =>
    rw [map_append, map_append, map_cons, map_nil, map_cons, map_nil, collected_append, run, foldl_append]
    exact ((arrives_last ha).collects hms (ih ha.left)).tracks

end Arriving

/-! ## Handing over -/

/-- It is the turn of a message: always, if it is unreliable; if it is newer than the latest, when it is sequenced; and if it is the
next of its channel, when it is reliable. -/
def InTurn (c : ConnectionRecord) (M : ReceivedMessage) : Prop :=
  match M.delivery with
  | .unreliable => True
  | .unreliableSequenced => (channelState c.channels M.channel).latestUnreliableSequence < M.sequence
  | .reliableOrdered => M.sequence = (channelState c.channels M.channel).nextReliableSequence

/-- The messages that are released come behind those that were delivered. -/
theorem received_releasePending (e : Env) (ch : UInt32) (wt : Nat) :
    ∀ n : Node, ∃ more, (releasePending e ch wt n).received = n.received ++ more := by
  induction wt with
  | zero => exact fun n => ⟨[], (append_nil _).symm⟩
  | succ wt ih =>
    intro n
    unfold releasePending
    dsimp only
    split
    · exact ⟨[], (append_nil _).symm⟩
    · rename_i M hf
      obtain ⟨more, hmr⟩ := ih (Node.modify (if e.ok (.released wt) = true then n.receiveMessage M else n) _)
      rw [hmr]
      split
      · exact ⟨M :: more, append_assoc n.received [M] more⟩
      · exact ⟨more, rfl⟩

/-- A message whose turn it is goes to the application, and after it only messages that waited for it. -/
theorem received_deliver {e : Env} {n : Node} {M : ReceivedMessage} (he : e.allocates = true) (ht : InTurn n.connection M) :
    ∃ more, (deliver e n M).received = n.received ++ M :: more ∧ (M.delivery ≠ .reliableOrdered → more = []) := by
  obtain ⟨hch, -, hr, -⟩ := Env.ok_of_allocates he
  unfold deliver
  cases hf : findChannelState (e.ok .channelState) n.connection.channels M.channel with
  | none =>
    unfold findChannelState at hf
    rw [hch] at hf
    split at hf <;> cases hf
  | some channels =>
    have hs := (findChannelState_eq_some hf).1
    cases hd : M.delivery with
    | unreliable =>
      simp only [hr, if_true]
      exact ⟨[], rfl, fun _ => rfl⟩
    | unreliableSequenced =>
      simp only [InTurn, hd] at ht
      simp only [hs, UInt64.not_le.2 ht, if_false, hr, if_true]
      exact ⟨[], rfl, fun _ => rfl⟩
    | reliableOrdered =>
      simp only [InTurn, hd] at ht
      simp only [deliverReliable, Node.modify_connection, hs, ht, UInt64.lt_irrefl, if_false, hr, true_eq_false]
      obtain ⟨more, hmr⟩ := received_releasePending e M.channel n.connection.orderedPending.length
        (((n.modify fun c => { c with channels := channels }).receiveMessage M).modify fun c => { c with
          channels := setNextReliable M.channel
            ((channelState n.connection.channels M.channel).nextReliableSequence + 1) c.channels })
      refine ⟨more, ?_, fun hne => absurd rfl hne⟩
      rw [hmr]
      exact append_assoc n.received [M] more

/-- Frames of several messages arrive, in any order and with duplicates, within the limits of reassembly.
1. A frame that completes its message hands the message over, as it was sent; what the application has and what waits is else unchanged.
2. As long as not all frames of a message have arrived, the frame that completes it is the last that was missing. After that the message
is collected anew: a frame completes it when all of them have arrived again.
3. The message that is handed over goes to the application if it is its turn, with the bytes that were sent. -/
theorem inbox_of_arrival (Γ : Ctx) (capacity : Nat) (messages : List QueuedMessage) (hmessages : Sendable Γ capacity messages)
    (n : Node) (hn : n.connection.reassembly = []) (arrivals : List FrameArrival) (a : FrameArrival)
    (harrive : Meets (fun n a => step Γ n a.input) (Arrives Γ capacity messages) n (arrivals ++ [a])) :
    let parts := parts capacity
    let before := run Γ n (arrivals.map FrameArrival.input)
    let after := step Γ before a.input
    let M := a.message.received before.connection.id
    let c := Completes parts (collected parts (arrivals.map FrameArrival.key)) a.key
    (after.inbox = if c then (deliver a.env before M).inbox else before.inbox) ∧
    (¬Finset.range (parts a.message) ⊆ arrived a.message (arrivals.map FrameArrival.key) →
      (c ↔ Finset.range (parts a.message) ⊆ arrived a.message ((arrivals ++ [a]).map FrameArrival.key))) ∧
    (c → InTurn before.connection M → M.payload = a.message.data ∧
      ∃ more, after.received = before.received ++ M :: more ∧ (M.delivery ≠ .reliableOrdered → more = [])) := by
  intro parts before after M c
  have hl : Arrives Γ capacity messages before a := arrives_last harrive
  have hi := (hl.collects hmessages (tracks_run hmessages hn arrivals harrive.left)).inbox
  refine ⟨hi, fun hms => ?_, fun hc ht => ⟨rfl, ?_⟩⟩
  · rw [map_append]
    exact completes_iff_of_missing hms a.index
  · have hr : after.received = (deliver a.env before M).received := (inbox_eq_iff.1 (hi.trans (if_pos hc))).1
    rw [hr]
    exact received_deliver hl.memory ht

/-! ## A message of two frames -/

/-- An unreliable message of three bytes, which is cut in two where a frame takes two bytes. -/
def shortMessage : QueuedMessage := ⟨{ delivery := .unreliable }, [1, 2, 3], 3, 5⟩

/-- A frame of it, in a packet with a number. -/
def shortArrival (number : UInt64) (index : Nat) : FrameArrival where
  message := shortMessage
  index := index
  source := ⟨[1]⟩
  data := framePacket (fragment 2 shortMessage.options 3 5 0 [1, 2, 3] index) 7 number 0 0 []
  env := { now := 1000 }

/-- A connection that is not encrypted reads the frame. -/
theorem arrives_shortArrival {n : Node} {num : UInt64} {index : Nat}
    (hn : n.connection.remote = ⟨[1]⟩ ∧ n.connection.state = .connected ∧ n.connection.id = 7 ∧ n.connection.secureEnabled = false)
    (hrm : ((n.connection.reassembly.any fun r => r.messageId = 3) || !reassemblyFull plainCtx.cfg n.connection 3) = true)
    (hi : index < 2) : Arrives plainCtx 2 [shortMessage] n (shortArrival num index) := by
  obtain ⟨hr, hs, hid, hp⟩ := hn
  refine ⟨mem_singleton_self _, hr, hs, ?_, .inr ?_, rfl⟩
  · refine ⟨0, num, 0, 0, [], fragment 2 shortMessage.options 3 5 0 [1, 2, 3] index, ?_, by decide, nofun, fun _ => rfl, ?_, n, ?_⟩
    · have hf : (fragments 2 shortMessage.options 3 5 0 [1, 2, 3])[index]? =
          some (fragment 2 shortMessage.options 3 5 0 [1, 2, 3] index) := by
        have hlt : index < fragmentCount 2 [(1 : UInt8), 2, 3].length := hi
        rw [fragments, getElem?_map, getElem?_range hlt, Option.map_some]
      exact hf
    · rw [hid]
      refine readHeader_encodeHeader ?_
      simp [PacketType.minimumSize, length_encodeAckRanges]
      omega
    · rw [openDatagram, if_pos hp, hid]
      rfl
  · have hfn : (∃ r ∈ n.connection.reassembly, r.messageId = 3) ∨ reassemblyFull plainCtx.cfg n.connection 3 = false := by
      simpa using hrm
    exact hfn

/-- The second frame arrives first, and the first completes the message. -/
theorem inbox_of_arrival_reversed :
    let first := [shortArrival 1 1]
    (run plainCtx openNode (first.map FrameArrival.input)).received = [] ∧
      ∃ more, (step plainCtx (run plainCtx openNode (first.map FrameArrival.input)) (shortArrival 2 0).input).received =
        (run plainCtx openNode (first.map FrameArrival.input)).received ++ shortMessage.received 7 :: more ∧
          (shortMessage.options.delivery ≠ .reliableOrdered → more = []) := by
  have h := inbox_of_arrival plainCtx 2 [shortMessage] ⟨by decide, by decide, by decide, by decide, by decide⟩ openNode rfl
    [shortArrival 1 1] (shortArrival 2 0)
    ⟨arrives_shortArrival (by decide) (by decide) (by decide),
      arrives_shortArrival (by decide +kernel) (by decide +kernel) (by decide), trivial⟩
  exact ⟨by decide +kernel, (h.2.2 (by decide +kernel) trivial).2⟩

/-- Both frames arrive twice, and the message is handed over twice, the second time by a frame that was not missing. -/
theorem inbox_of_arrival_again :
    let arrivals := [shortArrival 1 0, shortArrival 2 1, shortArrival 3 0]
    Meets (fun n a => step plainCtx n a.input) (Arrives plainCtx 2 [shortMessage]) openNode (arrivals ++ [shortArrival 4 1]) ∧
    Finset.range (shortMessage.parts 2) ⊆ arrived shortMessage (arrivals.map FrameArrival.key) ∧
    (run plainCtx openNode (arrivals.map FrameArrival.input)).received = [shortMessage.received 7] ∧
    (run plainCtx openNode ((arrivals ++ [shortArrival 4 1]).map FrameArrival.input)).received =
      [shortMessage.received 7, shortMessage.received 7] := by
  refine ⟨⟨?_, ?_, ?_, ?_, trivial⟩, by decide, by decide +kernel, by decide +kernel⟩
  · exact arrives_shortArrival (by decide) (by decide) (by decide)
  · exact arrives_shortArrival (by decide +kernel) (by decide +kernel) (by decide)
  · exact arrives_shortArrival (by decide +kernel) (by decide +kernel) (by decide)
  · exact arrives_shortArrival (by decide +kernel) (by decide +kernel) (by decide)

end Libft.Networking
