import Libft.Lib.Run
import Libft.Networking.Process

/-!
# The connection as a machine of small steps

What the calls of a connection do to the state that the results are about, said once. `core` forgets the rest of a node (timers,
congestion control, statistics that only count up, the state of the handshake); a step changes the core in one of the ways below and
is labelled with what an observer would name it by. That every call is a sequence of such steps is proved in the modules on its
stages; an invariant is then checked step by step, and never against the calls themselves.
-/

namespace Libft.Networking

open Function

/-! ## Packets -/

/-- The packets a connection protects, with what they say. -/
inductive Packet where
  | frame (frame : OutgoingFrame) (largest : UInt64) (ranges : List AckRange)
  | ack (largest : UInt64) (ranges : List AckRange)
  | close (reason : CloseReason) (text : Bytes)
  | pathChallenge (token : Bytes)
  | pathResponse (token : Bytes)
  | flowControl (credit : UInt64)
  | keyUpdate (epoch : UInt64)
  | keyUpdateAck (epoch : UInt64)

namespace Packet

/-- The type of a packet. -/
def type : Packet → PacketType
  | .frame .. => .frame
  | .ack .. => .ack
  | .close .. => .close
  | .pathChallenge _ => .pathChallenge
  | .pathResponse _ => .pathResponse
  | .flowControl _ => .flowControl
  | .keyUpdate _ => .keyUpdate
  | .keyUpdateAck _ => .keyUpdateAck

/-- The byte behind the type: the delivery of a frame, and zero for the others. -/
def flag : Packet → UInt8
  | .frame f _ _ => f.delivery.toByte
  | _ => 0

/-- The bytes of a packet. -/
def encode (id number epoch : UInt64) : Packet → Bytes
  | .frame f largest ranges => framePacket f id number epoch largest ranges
  | .ack largest ranges => encodeAck id number epoch largest ranges
  | .close reason text => closePacket id number epoch reason text
  | .pathChallenge token => pathPacket .pathChallenge id number epoch token
  | .pathResponse token => pathPacket .pathResponse id number epoch token
  | .flowControl credit => encodeControl .flowControl id number epoch credit
  | .keyUpdate next => encodeControl .keyUpdate id number epoch next
  | .keyUpdateAck acknowledged => encodeControl .keyUpdateAck id number epoch acknowledged

/-- The packets that are sealed whether or not the connection is encrypted. -/
def isKeyUpdate : Packet → Bool
  | .keyUpdate _ | .keyUpdateAck _ => true
  | _ => false

end Packet

/-! ## The core -/

/-- What decides when a lane is selected, besides its window of a second. -/
structure LaneShare where
  priorityWeight : UInt32
  reservedBandwidth : Nat
  deficit : UInt64
  deriving DecidableEq

/-- The share of a lane. -/
def LaneState.share (lane : LaneState) : LaneShare := ⟨lane.priorityWeight, lane.reservedBandwidthBytesPerSecond, lane.deficit⟩

/-- The state of a connection that the results are about. The channels are reduced to the number each has next for a reliable
message. -/
@[ext] structure Core where
  id : UInt64
  secure : Bool
  channel : SecureChannel
  nextPacket : UInt64
  nextMessage : UInt64
  pending : Lane → List OutgoingFrame
  sent : List SentPacket
  scanCursor : Nat
  bytesInFlight : Nat
  queueBytes : Nat
  laneQueued : Lane → Nat
  largest : UInt64
  ranges : List AckRange
  reassembly : List ReassemblyRecord
  reassemblyBytes : Nat
  reassemblyMessages : Nat
  reserved : Nat
  cursor : UInt32 → UInt64
  orderedPending : List ReceivedMessage
  received : List ReceivedMessage
  updatePending : Bool
  updateEpoch : UInt64
  remote : Endpoint
  pathPending : Bool
  pendingPath : Endpoint
  pathToken : Bytes
  shares : Lane → LaneShare
  wire : List (Endpoint × Bytes)

/-- The core of a node. -/
def core (n : Node) : Core where
  id := n.connection.id
  secure := n.connection.secureEnabled
  channel := n.connection.secureChannel
  nextPacket := n.connection.nextPacket
  nextMessage := n.connection.nextMessage
  pending := n.connection.pendingLanes
  sent := n.connection.sent
  scanCursor := n.connection.retransmissionCursor
  bytesInFlight := n.connection.bytesInFlight
  queueBytes := n.connection.statistics.queueBytes
  laneQueued := n.connection.statistics.laneQueuedBytes
  largest := n.connection.largestReceived
  ranges := n.connection.receivedRanges
  reassembly := n.connection.reassembly
  reassemblyBytes := n.connection.statistics.reassemblyBytes
  reassemblyMessages := n.connection.statistics.reassemblyMessages
  reserved := n.connection.reliableFlowReserved
  cursor := fun channel => (channelState n.connection.channels channel).nextReliableSequence
  orderedPending := n.connection.orderedPending
  received := n.received
  updatePending := n.connection.keyUpdatePending
  updateEpoch := n.connection.keyUpdateEpoch
  remote := n.connection.remote
  pathPending := n.connection.pathValidationPending
  pendingPath := n.connection.pendingPath
  pathToken := n.connection.pendingPathToken
  shares := fun lane => (n.connection.lanes lane).share
  wire := n.wire

namespace Core

/-- Whether a packet is sealed. -/
def protects (c : Core) (p : Packet) : Bool := c.secure || p.isKeyUpdate

/-- The bytes of a packet that is sent next, before they are sealed. -/
def packet (c : Core) (p : Packet) : Bytes :=
  p.encode c.id c.nextPacket (if c.protects p = true then c.channel.sendKeyEpoch else 0)

/-- The datagram of a packet that is sent next, and the channel that sealed it. -/
def Protects (Γ : Ctx) (c : Core) (p : Packet) (data : Bytes) (ch : SecureChannel) : Prop :=
  if c.protects p = true then protectPacket Γ.crypto c.channel true (c.packet p) = some (data, ch)
  else data = c.packet p ∧ ch = c.channel

/-- A datagram leaves. -/
def emit (c : Core) (destination : Endpoint) (data : Bytes) (ch : SecureChannel) : Core :=
  { c with channel := ch, nextPacket := c.nextPacket + 1, wire := c.wire ++ [(destination, data)] }

/-- The packets, other than frames and the first of a key update, that a connection may send: what they say of the connection is
true. -/
def MaySend (c : Core) : Packet → Prop
  | .frame .. => False
  | .ack largest ranges => largest = c.largest ∧ ranges = c.ranges
  | .keyUpdate next => c.updatePending = true ∧ next = c.updateEpoch
  | .keyUpdateAck acknowledged => c.secure = true ∧ acknowledged = c.channel.receiveKeyEpoch
  | _ => True

/-- The first frame of a lane is sent: a reliable one is kept for its acknowledgement, an unreliable one is done. -/
def transmit (c : Core) (destination : Endpoint) (now : UInt64) (lane : Lane) (frame : OutgoingFrame) (rest : List OutgoingFrame)
    (data : Bytes) (ch : SecureChannel) : Core :=
  let reliable := isReliable frame.delivery
  { c.emit destination data ch with
    pending := update c.pending lane rest
    sent := if reliable = true then c.sent ++ [⟨c.nextPacket, now, data.length, false, frame⟩] else c.sent
    bytesInFlight := if reliable = true then c.bytesInFlight + data.length else c.bytesInFlight
    queueBytes := if reliable = true then c.queueBytes else c.queueBytes - frame.payload.length
    laneQueued :=
      if reliable = true then c.laneQueued
      else update c.laneQueued lane (c.laneQueued lane - frame.payload.length) }

/-- A sent packet is sent again, and the next scan begins behind it. -/
def retransmit (c : Core) (destination : Endpoint) (now : UInt64) (index : Nat) (p : SentPacket) (data : Bytes)
    (ch : SecureChannel) : Core :=
  { c.emit destination data ch with
    sent := c.sent.set index
      { p with sentAt := now, packetNumber := c.nextPacket, wireSize := data.length, retransmitted := true }
    scanCursor := if c.sent.length ≤ index + 1 then 0 else index + 1
    bytesInFlight := c.bytesInFlight + (data.length - p.wireSize) - (p.wireSize - data.length) }

/-- A message is queued as the frames of a lane. -/
def enqueue (c : Core) (capacity : Nat) (now : UInt64) (options : SendOptions) (sequence : UInt64) (data : Bytes) : Core :=
  let lane := laneIndex options.lane
  { c with
    nextMessage := c.nextMessage + 1
    pending := update c.pending lane
      (c.pending lane ++ fragments capacity options c.nextMessage sequence now data)
    queueBytes := c.queueBytes + data.length
    laneQueued := update c.laneQueued lane (c.laneQueued lane + data.length)
    reserved := if isReliable options.delivery = true then c.reserved + data.length else c.reserved
    cursor := if isReliable options.delivery = true then update c.cursor options.channel (sequence + 1) else c.cursor }

/-- The number of a frame is recorded for the acknowledgement. -/
def record (c : Core) (number : UInt64) : Core :=
  { c with
    ranges := (recordPacket number c.ranges).2
    largest := if (recordPacket number c.ranges).1 = true ∧ c.largest < number then number else c.largest }

/-- The flow credit that a frame reserves: its bytes, if it is reliable. -/
def credit (frame : OutgoingFrame) : Nat := if isReliable frame.delivery = true then frame.payload.length else 0

/-- The flow credit that frames reserve. -/
def reservation (frames : List OutgoingFrame) : Nat := (frames.map credit).sum

@[simp] theorem reservation_nil : reservation [] = 0 := rfl

@[simp] theorem reservation_cons (frame : OutgoingFrame) (fs : List OutgoingFrame) :
    reservation (frame :: fs) = credit frame + reservation fs := by
  simp [reservation]

@[simp] theorem reservation_append (fs fs' : List OutgoingFrame) :
    reservation (fs ++ fs') = reservation fs + reservation fs' := by
  simp [reservation]

/-- Sent packets are acknowledged. -/
def acknowledge (c : Core) (acknowledged : SentPacket → Bool) : Core :=
  let done := c.sent.filter acknowledged
  { c with
    sent := c.sent.filter fun p => !acknowledged p
    bytesInFlight := c.bytesInFlight - (done.map SentPacket.wireSize).sum
    queueBytes := c.queueBytes - (done.map fun p => p.frame.payload.length).sum
    laneQueued := fun lane =>
      c.laneQueued lane - ((done.filter fun p => laneIndex p.frame.lane = lane).map fun p => p.frame.payload.length).sum
    reserved := c.reserved - reservation (done.map SentPacket.frame) }

/-- Where a message that is to be delivered comes from: a frame of its own, or a record that is complete. -/
def Origin (c : Core) (single : Bool) (m : ReceivedMessage) : Prop :=
  single = true ∨ ∃ record ∈ c.reassembly, record.receivedCount = record.totalSize.toNat ∧ m = record.message c.id

/-- A message that waits and is next on its channel. -/
def isNext (c : Core) (channel : UInt32) (m : ReceivedMessage) : Bool :=
  decide (m.channel = channel) && decide (m.sequence = c.cursor channel)

/-- The message that was next on a channel is past. -/
def advance (c : Core) (channel : UInt32) : Core :=
  { c with cursor := update c.cursor channel (c.cursor channel + 1) }

/-- What became of a reliable message that was to be delivered: it is old, it waits, or it was delivered. -/
def Settled (c : Core) (m : ReceivedMessage) : Prop := m.sequence < c.cursor m.channel ∨ m ∈ c.orderedPending ∨ m ∈ c.received

/-- A fragment goes into a record. -/
def store (c : Core) (index : Nat) (record : ReassemblyRecord) (f : FrameBody) : Core :=
  { c with reassembly := c.reassembly.set index (record.store f.fragmentOffset.toNat f.payload) }

end Core

/-! ## Steps -/

/-- What a step is named by. -/
inductive Label where
  | emit (p : Packet)
  | greet
  | burn
  | transmit (frame : OutgoingFrame)
  | retransmit (p : SentPacket)
  | expireSent (p : SentPacket)
  | drop (frame : OutgoingFrame)
  | forget (frame : OutgoingFrame)
  | abort (queueBytes : Nat)
  | enqueue (options : SendOptions) (data : Bytes)
  | install
  | clearPrevious
  | opened
  | request (epoch : UInt64)
  | answer (keyEpoch epoch : UInt64)
  | confirm (epoch : UInt64)
  | rotate
  | challenge (source : Endpoint) (token : Bytes)
  | migrate
  | select
  | configure
  | record (number : UInt64)
  | acknowledge (largest : UInt64) (ranges : List (UInt16 × UInt16))
  | hear (m : ReceivedMessage)
  | deliver (single : Bool) (m : ReceivedMessage)
  | buffer (single : Bool) (m : ReceivedMessage)
  | release (m : ReceivedMessage)
  | lose (m : ReceivedMessage)
  | openRecord (held : Nat) (record : ReassemblyRecord)
  | store (f : FrameBody)
  | complete (settled : Bool)
  | expireRecords (gone : List ReassemblyRecord)

/-- The packet numbers a step uses up. -/
def Label.weight : Label → Nat
  | .emit _ | .transmit _ | .retransmit _ | .request _ | .answer _ _ => 1
  | _ => 0

/-- One step of a connection. -/
inductive Step (Γ : Ctx) : Core → Label → Core → Prop
  /-- A packet that is not a frame leaves. -/
  | emit (c : Core) (p : Packet) (destination : Endpoint) (data : Bytes) (ch : SecureChannel) (hp : c.MaySend p)
      (h : c.Protects Γ p data ch) : Step Γ c (.emit p) (c.emit destination data ch)
  /-- A handshake packet leaves. -/
  | greet (c : Core) (destination : Endpoint) (type : PacketType) (payload data : Bytes) (htype : type.isHandshake = true)
      (h : encodeHandshake type c.id payload Γ.cfg.maximumDatagramSize.toNat = some data) :
      Step Γ c .greet { c with wire := c.wire ++ [(destination, data)] }
  /-- A packet is sealed and does not leave. -/
  | burn (c : Core) (p : Packet) (data : Bytes) (ch : SecureChannel) (h : c.Protects Γ p data ch) :
      Step Γ c .burn { c with channel := ch }
  /-- The first frame of a lane is sent. -/
  | transmit (c : Core) (destination : Endpoint) (now : UInt64) (lane : Lane) (frame : OutgoingFrame)
      (rest : List OutgoingFrame) (data : Bytes) (ch : SecureChannel) (hlane : c.pending lane = frame :: rest)
      (hsize : frame.payload.length ≤ 65535) (h : c.Protects Γ (.frame frame c.largest c.ranges) data ch) :
      Step Γ c (.transmit frame) (c.transmit destination now lane frame rest data ch)
  /-- A sent packet is sent again. -/
  | retransmit (c : Core) (destination : Endpoint) (now : UInt64) (index : Nat) (p : SentPacket) (data : Bytes)
      (ch : SecureChannel) (hp : c.sent[index]? = some p) (hsize : p.frame.payload.length ≤ 65535)
      (h : c.Protects Γ (.frame p.frame c.largest c.ranges) data ch) :
      Step Γ c (.retransmit p) (c.retransmit destination now index p data ch)
  /-- The message of a sent packet expired. -/
  | expireSent (c : Core) (index : Nat) (p : SentPacket) (hp : c.sent[index]? = some p) :
      Step Γ c (.expireSent p)
        { c with
          sent := c.sent.eraseIdx index
          scanCursor := if c.sent.length - 1 ≤ c.scanCursor then 0 else c.scanCursor
          queueBytes := c.queueBytes - p.frame.payload.length
          reserved := c.reserved - Core.credit p.frame }
  /-- The first frame of a lane expired. -/
  | drop (c : Core) (lane : Lane) (frame : OutgoingFrame) (rest : List OutgoingFrame) (hlane : c.pending lane = frame :: rest) :
      Step Γ c (.drop frame)
        { c with pending := update c.pending lane rest, reserved := c.reserved - Core.credit frame }
  /-- The first frame of a lane was taken out and could not be put back. -/
  | forget (c : Core) (lane : Lane) (frame : OutgoingFrame) (rest : List OutgoingFrame) (hlane : c.pending lane = frame :: rest) :
      Step Γ c (.forget frame) { c with pending := update c.pending lane rest }
  /-- The connection is aborted. -/
  | abort (c : Core) :
      Step Γ c (.abort c.queueBytes) { c with
        pending := fun _ => []
        sent := []
        bytesInFlight := 0
        queueBytes := 0
        reassembly := []
        reassemblyBytes := 0
        reassemblyMessages := 0
        reserved := 0
        orderedPending := [] }
  /-- A message is queued. -/
  | enqueue (c : Core) (now : UInt64) (options : SendOptions) (sequence : UInt64) (data : Bytes) (hlane : options.lane < 4)
      (hsize : data.length ≤ Γ.cfg.maximumMessageSize.toNat) (hcapacity : Γ.cfg.payloadCapacity ≠ 0)
      (hcount : fragmentCount Γ.cfg.payloadCapacity data.length ≤ 255)
      (hsequence : isReliable options.delivery = true → sequence = c.cursor options.channel) :
      Step Γ c (.enqueue options data) (c.enqueue Γ.cfg.payloadCapacity now options sequence data)
  /-- The keys of the handshake are installed. -/
  | install (c : Core) (sendKey receiveKey : TrafficKey) (ch : SecureChannel)
      (h : c.channel.initializeDirectional sendKey receiveKey = .ok ch) : Step Γ c .install { c with channel := ch }
  /-- The previous receive key is forgotten. -/
  | clearPrevious (c : Core) (ch : SecureChannel) (h : c.channel.clearPreviousReceiveKey = .ok ch) :
      Step Γ c .clearPrevious { c with channel := ch }
  /-- A datagram is opened. -/
  | opened (c : Core) (storage : Bool) (number epoch : UInt64) (ad box plaintext : Bytes) (ch : SecureChannel)
      (h : c.channel.openAtEpoch Γ.crypto storage number epoch ad box = some (plaintext, ch)) :
      Step Γ c .opened { c with channel := ch }
  /-- The peer is asked to rotate its receive key. -/
  | request (c : Core) (destination : Endpoint) (epoch : UInt64) (data : Bytes) (ch : SecureChannel) (hs : c.secure = true)
      (hp : c.updatePending = false) (he : c.channel.sendKeyEpoch < epoch) (h : c.Protects Γ (.keyUpdate epoch) data ch) :
      Step Γ c (.request epoch) { c.emit destination data ch with updatePending := true, updateEpoch := epoch }
  /-- The peer's request is acknowledged, and the receive key rotates. -/
  | answer (c : Core) (destination : Endpoint) (epoch : UInt64) (data : Bytes) (ch ch' : SecureChannel) (hs : c.secure = true)
      (he : c.channel.receiveKeyEpoch < epoch) (h : c.Protects Γ (.keyUpdateAck epoch) data ch)
      (hr : ch.updateReceiveKeyEpoch Γ.crypto epoch = .ok ch') :
      Step Γ c (.answer c.channel.receiveKeyEpoch epoch) (c.emit destination data ch')
  /-- Our request was acknowledged, and the send key rotates. -/
  | confirm (c : Core) (ch : SecureChannel) (hs : c.secure = true) (hp : c.updatePending = true)
      (h : c.channel.updateSendKeyEpoch Γ.crypto c.updateEpoch = .ok ch) :
      Step Γ c (.confirm c.updateEpoch) { c with channel := ch, updatePending := false, updateEpoch := 0 }
  /-- Both keys rotate, without a word to the peer. -/
  | rotate (c : Core) (epoch : UInt64) (ch : SecureChannel) (h : c.channel.updateKeyEpoch Γ.crypto epoch = .ok ch) :
      Step Γ c .rotate { c with channel := ch }
  /-- Another address is challenged. -/
  | challenge (c : Core) (source : Endpoint) (token : Bytes) :
      Step Γ c (.challenge source token) { c with pathPending := true, pendingPath := source, pathToken := token }
  /-- The address that was challenged has answered, and becomes that of the peer. -/
  | migrate (c : Core) (hpending : c.pathPending = true) :
      Step Γ c .migrate { c with
        remote := c.pendingPath
        pathPending := false
        pendingPath := ⟨[]⟩
        pathToken := List.replicate 8 0 }
  /-- A lane is selected: lanes earn, and one pays. -/
  | select (c : Core) (shares : Lane → LaneShare) : Step Γ c .select { c with shares := shares }
  /-- A lane is given another weight or reservation. -/
  | configure (c : Core) (shares : Lane → LaneShare) : Step Γ c .configure { c with shares := shares }
  /-- The number of a frame is recorded. -/
  | record (c : Core) (number : UInt64) : Step Γ c (.record number) (c.record number)
  /-- Sent packets are acknowledged. -/
  | acknowledge (c : Core) (largest : UInt64) (ranges : List (UInt16 × UInt16)) :
      Step Γ c (.acknowledge largest ranges) (c.acknowledge fun p => isAcknowledged largest ranges p.packetNumber)
  /-- An unreliable message is delivered. -/
  | hear (c : Core) (m : ReceivedMessage) (hm : m.delivery ≠ .reliableOrdered) :
      Step Γ c (.hear m) { c with received := c.received ++ [m] }
  /-- A reliable message that is next is delivered. -/
  | deliver (c : Core) (single : Bool) (m : ReceivedMessage) (hm : m.delivery = .reliableOrdered) (horigin : c.Origin single m)
      (hnext : m.sequence = c.cursor m.channel) :
      Step Γ c (.deliver single m) { c.advance m.channel with received := c.received ++ [m] }
  /-- A reliable message that is not yet next waits. -/
  | buffer (c : Core) (single : Bool) (m : ReceivedMessage) (hm : m.delivery = .reliableOrdered) (horigin : c.Origin single m)
      (hnext : c.cursor m.channel < m.sequence) :
      Step Γ c (.buffer single m) { c with orderedPending := c.orderedPending ++ [m] }
  /-- A message that waited is next, and is delivered. -/
  | release (c : Core) (m : ReceivedMessage) (channel : UInt32)
      (hm : c.orderedPending.find? (c.isNext channel) = some m) :
      Step Γ c (.release m) { c.advance channel with
        orderedPending := c.orderedPending.eraseP (c.isNext channel)
        received := c.received ++ [m] }
  /-- A message that waited is next, and there is no memory for it. -/
  | lose (c : Core) (m : ReceivedMessage) (channel : UInt32)
      (hm : c.orderedPending.find? (c.isNext channel) = some m) :
      Step Γ c (.lose m) { c.advance channel with orderedPending := c.orderedPending.eraseP (c.isNext channel) }
  /-- A record is opened. -/
  | openRecord (c : Core) (record : ReassemblyRecord) (hnew : ∀ r ∈ c.reassembly, r.messageId ≠ record.messageId) :
      Step Γ c (.openRecord c.reassemblyBytes record) { c with
        reassembly := c.reassembly ++ [record]
        reassemblyBytes := c.reassemblyBytes + record.totalSize.toNat
        reassemblyMessages := c.reassemblyMessages + 1 }
  /-- A fragment goes into its record. -/
  | store (c : Core) (index : Nat) (record : ReassemblyRecord) (f : FrameBody) (hrecord : c.reassembly[index]? = some record)
      (hid : record.messageId = f.messageId) (hsize : f.fragmentOffset.toNat + f.payload.length ≤ record.payload.length) :
      Step Γ c (.store f) (c.store index record f)
  /-- A complete record is removed, once its message is settled unless there was no memory. -/
  | complete (c : Core) (index : Nat) (record : ReassemblyRecord) (hrecord : c.reassembly[index]? = some record) (settled : Bool)
      (hcount : record.receivedCount = record.totalSize.toNat)
      (hsettled : settled = true → record.delivery = .reliableOrdered → ∃ id, c.Settled (record.message id)) :
      Step Γ c (.complete settled) { c with
        reassembly := c.reassembly.eraseIdx index
        reassemblyBytes := c.reassemblyBytes - record.totalSize.toNat
        reassemblyMessages := c.reassemblyMessages - 1 }
  /-- Records are given up. -/
  | expireRecords (c : Core) (expired : ReassemblyRecord → Bool) :
      Step Γ c (.expireRecords (c.reassembly.filter expired)) { c with
        reassembly := c.reassembly.filter fun record => !expired record
        reassemblyBytes := c.reassemblyBytes - ((c.reassembly.filter expired).map fun record => record.totalSize.toNat).sum
        reassemblyMessages := c.reassemblyMessages - (c.reassembly.filter expired).length }

/-- Steps of a kind, of which a bounded number sends. -/
abbrev Performs (Γ : Ctx) (P : Label → Prop) (packets : Nat) (n n' : Node) : Prop :=
  Does (Step Γ) Label.weight P packets (core n) (core n')

end Libft.Networking
