import Libft.Networking.Deliver

/-!
# The calls of the application, and the packets they send

The senders of single packets, which share one shape (encode, protect, send, count), `send_connection_message`, which cuts a message
into frames and queues them, and the calls that close a connection, change its keys or configure it. The checks that only find the
connection of an id are left to the caller; every function here has its connection.
-/

namespace Libft.Networking

open Function

/-- A connection with nothing pending in any lane. -/
def ConnectionRecord.lanesEmpty (c : ConnectionRecord) : Bool :=
  (c.pendingLanes 0).isEmpty && (c.pendingLanes 1).isEmpty && (c.pendingLanes 2).isEmpty && (c.pendingLanes 3).isEmpty

/-- The epoch a packet is sent in: that of the send key, or zero without encryption. -/
def ConnectionRecord.sendEpoch (c : ConnectionRecord) : UInt64 :=
  if c.secureEnabled = true then c.secureChannel.sendKeyEpoch else 0

/-- Seal a packet, when the connection asks for it; the channel then counts the number as used. -/
def protectFor (Γ : Ctx) (e : Env) (place : SendPlace) (protect : Bool) (n : Node) (packet : Bytes) : Option (Bytes × Node) :=
  if protect = true then
    (protectPacket Γ.crypto n.connection.secureChannel (e.ok (.seal_ place)) packet).map fun (packet, ch) =>
      (packet, n.modify fun c => { c with secureChannel := ch })
  else some (packet, n)

/-! ## Single packets -/

/-- The shape of the senders: a packet that cannot be encoded, sealed or sent gives its result code, and one that was sent is counted
and uses up the packet number. -/
def sendPacket (Γ : Ctx) (e : Env) (place : SendPlace) (protect : Bool) (n : Node) (destination : Endpoint)
    (packet : Option Bytes) : Node × FtError :=
  match packet with
  | none => (n, .outOfRange)
  | some packet =>
    match protectFor Γ e place protect n packet with
    | none => (n, .permissionDenied)
    | some (packet, n) =>
      if e.ok (.send place) = false then (n, .socketSendFailed)
      else
        ((n.emit destination packet).modify fun c => { c with
          lastSend := e.now
          nextPacket := c.nextPacket + 1
          statistics := { c.statistics with
            packetsSent := c.statistics.packetsSent + 1
            bytesSent := if place = .keyUpdateAck then c.statistics.bytesSent else c.statistics.bytesSent + packet.length } },
          .success)

/-- `send_key_update_request`. It seals whether or not the connection is encrypted. -/
def sendKeyUpdateRequest (Γ : Ctx) (e : Env) (n : Node) (nextEpoch : UInt64) : Node × FtError :=
  let c := n.connection
  sendPacket Γ e .keyUpdate true n c.remote
    (encodeKeyUpdate c.id c.nextPacket c.secureChannel.sendKeyEpoch nextEpoch Γ.cfg.maximumDatagramSize.toNat)

/-- `send_key_update_ack`, which does not count the bytes it sends. -/
def sendKeyUpdateAck (Γ : Ctx) (e : Env) (n : Node) (acknowledgedEpoch : UInt64) : Node × FtError :=
  let c := n.connection
  sendPacket Γ e .keyUpdateAck true n c.remote
    (encodeKeyUpdateAck c.id c.nextPacket c.secureChannel.sendKeyEpoch acknowledgedEpoch Γ.cfg.maximumDatagramSize.toNat)

/-- `send_close`. -/
def sendClose (Γ : Ctx) (e : Env) (n : Node) (reason : CloseReason) (debugText : Bytes) : Node × FtError :=
  let c := n.connection
  sendPacket Γ e .close c.secureEnabled n c.remote
    (encodeClose c.id c.nextPacket c.sendEpoch reason debugText Γ.cfg.maximumDatagramSize.toNat)

/-- `send_path_packet`. -/
def sendPathPacket (Γ : Ctx) (e : Env) (n : Node) (type : PacketType) (destination : Endpoint) (token : Bytes) :
    Node × FtError :=
  let c := n.connection
  sendPacket Γ e .path c.secureEnabled n destination
    (encodePath type c.id c.nextPacket c.sendEpoch token Γ.cfg.maximumDatagramSize.toNat)

/-- `send_flow_control`, which remembers the credit it advertised. -/
def sendFlowControl (Γ : Ctx) (e : Env) (n : Node) (receiveCredit : Nat) : Node × FtError :=
  let c := n.connection
  match sendPacket Γ e .flowControl c.secureEnabled n c.remote
      (encodeFlowControl c.id c.nextPacket c.sendEpoch (UInt64.ofNat receiveCredit) Γ.cfg.maximumDatagramSize.toNat) with
  | (n, .success) => (n.modify fun c => { c with advertisedFlowCredit := receiveCredit }, .success)
  | failed => failed

/-- The shape of the handshake senders: nothing is sealed and no packet number is used. -/
def sendHandshake (Γ : Ctx) (e : Env) (place : SendPlace) (n : Node) (type : PacketType) (payload : Except FtError Bytes) :
    Node × FtError :=
  match payload with
  | .error code => (n, code)
  | .ok payload =>
    match encodeHandshake type n.connection.id payload Γ.cfg.maximumDatagramSize.toNat with
    | none => (n, .internal)
    | some packet =>
      if e.ok (.send place) = false then (n, .socketSendFailed)
      else
        ((n.emit n.connection.remote packet).modify fun c => { c with
          lastSend := e.now
          finishedSent := c.finishedSent || decide (type = .handshakeFinished)
          statistics := { c.statistics with
            packetsSent := c.statistics.packetsSent + 1
            bytesSent := c.statistics.bytesSent + packet.length } }, .success)

/-- `send_handshake_hello`. -/
def sendHandshakeHello (Γ : Ctx) (e : Env) (n : Node) : Node × FtError :=
  sendHandshake Γ e .hello n .handshakeHello n.connection.handshake.getLocalHello

/-- `send_handshake_finished`. -/
def sendHandshakeFinished (Γ : Ctx) (e : Env) (n : Node) : Node × FtError :=
  sendHandshake Γ e .finished n .handshakeFinished (n.connection.handshake.createFinished Γ.crypto)

/-! ## Messages -/

/-- How many frames a message of that size is cut into. -/
def fragmentCount (capacity size : Nat) : Nat := max 1 ((size + capacity - 1) / capacity)

/-- The frame of a message with that index. -/
def fragment (capacity : Nat) (options : SendOptions) (messageId sequence now : UInt64) (data : Bytes) (index : Nat) :
    OutgoingFrame where
  delivery := options.delivery
  lane := options.lane
  channel := options.channel
  messageId := messageId
  sequence := sequence
  expiry := if options.expiryMilliseconds = 0 then 0 else now + options.expiryMilliseconds
  totalSize := UInt32.ofNat data.length
  offset := UInt32.ofNat (index * capacity)
  payload := (data.drop (index * capacity)).take capacity
  fragmentCount := UInt8.ofNat (fragmentCount capacity data.length)

/-- The frames of a message. -/
def fragments (capacity : Nat) (options : SendOptions) (messageId sequence now : UInt64) (data : Bytes) : List OutgoingFrame :=
  (List.range (fragmentCount capacity data.length)).map (fragment capacity options messageId sequence now data)

/-- A message that is queued: its frames go behind those of its lane, its channel moves on, and it is counted. -/
def queueMessage (options : SendOptions) (sequence : UInt64) (frames : List OutgoingFrame) (size : Nat) (c : ConnectionRecord) :
    ConnectionRecord :=
  let lane := laneIndex options.lane
  let reliable := isReliable options.delivery
  { c with
    nextMessage := c.nextMessage + 1
    channels :=
      if reliable = true then setNextReliable options.channel (sequence + 1) c.channels
      else setLatestUnreliable options.channel sequence c.channels
    pendingLanes := update c.pendingLanes lane (c.pendingLanes lane ++ frames)
    reliableFlowReserved := if reliable = true then c.reliableFlowReserved + size else c.reliableFlowReserved
    statistics := { c.statistics with
      messagesSent := c.statistics.messagesSent + 1
      queueBytes := c.statistics.queueBytes + size
      laneMessagesSent := update c.statistics.laneMessagesSent lane (c.statistics.laneMessagesSent lane + 1)
      laneBytesSent := update c.statistics.laneBytesSent lane (c.statistics.laneBytesSent lane + size)
      laneQueuedBytes := update c.statistics.laneQueuedBytes lane (c.statistics.laneQueuedBytes lane + size) } }

/-- Whether the peer's credit has room for a reliable message. -/
def ConnectionRecord.hasFlowCredit (c : ConnectionRecord) (size : Nat) : Bool :=
  decide (size ≤ c.remoteFlowCredit) && decide (c.reliableFlowReserved ≤ c.remoteFlowCredit - size)

/-- The checks of `send_connection_message` that come before it changes anything. -/
def refuseMessage (cfg : TransportConfig) (c : ConnectionRecord) (size : Nat) (options : SendOptions) : Option FtError :=
  if c.state ≠ .connected then some .invalidHandle
  else if c.keyUpdatePending = true then some .invalidState
  else if 4 ≤ options.lane then some .invalidArgument
  else if isReliable options.delivery = true ∧ c.hasFlowCredit size = false then some .full
  else if cfg.maximumMessageSize.toNat < size then some .outOfRange
  else if cfg.payloadCapacity = 0 then some .configuration
  else if 255 < fragmentCount cfg.payloadCapacity size then some .outOfRange
  else none

/-- `send_connection_message`. A message that does not fit the queue, or for one of whose frames there is no memory, is taken back:
what stays of it is the record of its channel. -/
def sendConnectionMessage (Γ : Ctx) (e : Env) (n : Node) (data : Bytes) (options : SendOptions) : Node × FtError :=
  let c := n.connection
  match refuseMessage Γ.cfg c data.length options with
  | some code => (n, code)
  | none =>
    match findChannelState (e.ok .channelState) c.channels options.channel with
    | none => (n, .noMemory)
    | some channels =>
      let n := n.modify fun c => { c with channels := channels }
      let state := channelState channels options.channel
      let sequence :=
        if isReliable options.delivery = true then state.nextReliableSequence else state.latestUnreliableSequence + 1
      let frames := fragments Γ.cfg.payloadCapacity options c.nextMessage sequence e.now data
      if ((List.range frames.length).all fun index => e.ok (.outgoingFrame index)) = false then (n, .noMemory)
      else if c.maximumQueuedBytes.toNat < c.statistics.queueBytes + data.length then (n, .full)
      else (n.modify (queueMessage options sequence frames data.length), .success)

/-! ## Closing -/

/-- The end of a draining connection with nothing left to send: a close packet, and the connection is closed whether or not the packet
could be sent. -/
def finishDraining (Γ : Ctx) (e : Env) (n : Node) (reason : CloseReason) : Node × FtError :=
  let (n, result) := sendClose Γ e n n.connection.drainingReason n.connection.drainingDebugText
  let n := (n.modify fun c => { c with state := .closed }).emitEvent .closed (.close reason)
  (n, if result = .socketSendFailed then .success else result)

/-- What an aborted connection forgets. The byte counts of the lanes are not among it. -/
def clearQueues (c : ConnectionRecord) : ConnectionRecord :=
  { c with
    pendingLanes := fun _ => []
    sent := []
    bytesInFlight := 0
    reliableFlowReserved := 0
    reassembly := []
    orderedPending := []
    statistics := { c.statistics with
      queueBytes := 0
      reassemblyBytes := 0
      reassemblyMessages := 0 } }

/-- `close_connection` with `abort_connection`, on a connection that is not closed. -/
def abortConnection (Γ : Ctx) (e : Env) (n : Node) (reason : CloseReason) (debugText : Bytes) : Node × FtError :=
  let (n, result) := sendClose Γ e n reason debugText
  let n := (n.modify fun c => { c with state := .closed }).emitEvent .closed (.code .success)
  (n.modify clearQueues, if result = .socketSendFailed then .success else result)

/-- `close_connection`. -/
def closeConnection (Γ : Ctx) (e : Env) (n : Node) (reason : CloseReason) (debugText : Bytes) (abort : Bool) : Node × FtError :=
  if n.connection.state = .closed then (n, .success)
  else if abort = true then abortConnection Γ e n reason debugText
  else if n.connection.state = .draining then (n, .success)
  else
    let n := n.modify fun c => { c with
      drainingStarted := e.now
      drainingReason := reason
      drainingDebugText := (debugText.takeWhile (· ≠ 0)).take 95
      state := .draining }
    if n.connection.sent.isEmpty && n.connection.lanesEmpty then finishDraining Γ e n reason else (n, .success)

/-! ## Keys and limits -/

/-- `update_connection_key_epoch`: both keys of this side, without a word to the peer. -/
def updateConnectionKeyEpoch (Γ : Ctx) (n : Node) (nextEpoch : UInt64) : Node × FtError :=
  let c := n.connection
  if c.secureEnabled = false ∨ c.state ≠ .connected then (n, .unsupportedType)
  else if c.sent.isEmpty = false ∨ c.lanesEmpty = false then (n, .invalidState)
  else
    match c.secureChannel.updateKeyEpoch Γ.crypto nextEpoch with
    | .error code => (n, code)
    | .ok ch => (n.modify fun c => { c with secureChannel := ch }, .success)

/-- `request_connection_key_update`: the peer is asked to rotate its receive key, and the send key waits for its answer. -/
def requestConnectionKeyUpdate (Γ : Ctx) (e : Env) (n : Node) (nextEpoch : UInt64) : Node × FtError :=
  let c := n.connection
  if c.secureEnabled = false ∨ c.state ≠ .connected then (n, .unsupportedType)
  else if c.sent.isEmpty = false ∨ c.keyUpdatePending = true ∨ c.lanesEmpty = false then (n, .invalidState)
  else if nextEpoch ≤ c.secureChannel.sendKeyEpoch then (n, .invalidArgument)
  else
    match sendKeyUpdateRequest Γ e n nextEpoch with
    | (n, .success) =>
      (n.modify fun c => { c with keyUpdatePending := true, keyUpdateEpoch := nextEpoch, keyUpdateSentAt := e.now }, .success)
    | failed => failed

/-- `configure_connection_lane`. -/
def configureConnectionLane (n : Node) (lane : UInt8) (priorityWeight reservedBandwidth : UInt32) : Node × FtError :=
  if 4 ≤ lane ∨ priorityWeight = 0 then (n, .invalidArgument)
  else
    (n.modify fun c => { c with
      lanes := update c.lanes (laneIndex lane) { c.lanes (laneIndex lane) with
        priorityWeight := priorityWeight
        reservedBandwidthBytesPerSecond := reservedBandwidth.toNat } }, .success)

/-- `set_connection_queue_limits`. -/
def setConnectionQueueLimits (n : Node) (maximumQueuedBytes : UInt32) : Node × FtError :=
  if maximumQueuedBytes = 0 ∨ maximumQueuedBytes.toNat < n.connection.statistics.queueBytes then (n, .full)
  else (n.modify fun c => { c with maximumQueuedBytes := maximumQueuedBytes }, .success)

end Libft.Networking
