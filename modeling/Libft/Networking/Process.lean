import Libft.Networking.Advance

/-!
# One datagram

`process_datagram` and `process_handshake_datagram` for the connection a datagram names. The four bytes at the front and the id are
read first; a handshake packet goes its own way; any other packet is opened under the receive key of its epoch, when the connection is
encrypted, and then read and acted upon by its type.
-/

namespace Libft.Networking

open Bytes List

/-! ## Before the connection is known -/

/-- The front of a packet. -/
structure Header where
  type : PacketType
  flag : UInt8
  connectionId : UInt64
  deriving DecidableEq, Repr

/-- The bytes a packet of a type must have before its id is looked at. -/
def PacketType.minimumSize : PacketType → Nat
  | .pathChallenge | .pathResponse | .flowControl => 36
  | .close => 31
  | .handshakeHello | .handshakeFinished | .handshakeRetry => 14
  | .frame | .ack | .keyUpdate | .keyUpdateAck => 40

/-- The first checks of `process_datagram` and `process_handshake_datagram`. -/
def readHeader (data : Bytes) : Option Header :=
  match data with
  | magic :: version :: type :: flag :: rest => do
    if magic ≠ packetMagic ∨ version ≠ packetVersion then none
    let type ← PacketType.ofByte? type
    if data.length < type.minimumSize then none
    let (connectionId, _) ← readU64 rest
    return ⟨type, flag, connectionId⟩
  | _ => none

/-- The payload of a handshake packet: all that follows its length, and exactly that long. -/
def readHandshakePayload (data : Bytes) : Option Bytes := do
  let (payloadSize, payload) ← readU16 (data.drop 12)
  if payloadSize.toNat = payload.length then some payload else none

/-- The counters of a connection that received a packet. -/
def countReceived (now : UInt64) (size : Nat) (c : ConnectionRecord) : ConnectionRecord :=
  { c with
    lastReceive := now
    statistics := { c.statistics with
      packetsReceived := c.statistics.packetsReceived + 1
      bytesReceived := c.statistics.bytesReceived + size } }

/-! ## Opening -/

/-- The packet of a datagram: the datagram itself, or the authenticated bytes and what they protect. -/
def openDatagram (Γ : Ctx) (e : Env) (n : Node) (type : PacketType) (data : Bytes) : Except FtError (Bytes × Node) :=
  let ch := n.connection.secureChannel
  let length := type.associatedDataLength
  if n.connection.secureEnabled = false then .ok (data, n)
  else if data.length < length + tagSize then .error .invalidArgument
  else
    match readU64 (data.drop type.packetNumberOffset) with
    | none => .error .invalidArgument
    | some (packetNumber, rest) =>
      match readU64 rest with
      | none => .error .permissionDenied
      | some (keyEpoch, _) =>
        if (keyEpoch ≠ ch.receiveKeyEpoch ∧ type ≠ .keyUpdate) ∨
            (type = .keyUpdate ∧ ch.hasReceiveEpoch keyEpoch = false) then .error .permissionDenied
        else
          match ch.openAtEpoch Γ.crypto (e.ok .open_) packetNumber keyEpoch (data.take length) (data.drop length) with
          | none => .error .permissionDenied
          | some (plaintext, ch) => .ok (data.take length ++ plaintext, n.modify fun c => { c with secureChannel := ch })

/-! ## Control packets -/

/-- A flow control packet: once the peer has given a credit, it may not take it back. -/
def processFlowControl (e : Env) (n : Node) (data : Bytes) : Node × FtError :=
  match readControl data with
  | none => (n, .invalidArgument)
  | some body =>
    if n.connection.secureEnabled = false ∧ body.keyEpoch ≠ 0 then (n, .invalidArgument)
    else if n.connection.remoteFlowControlReceived = true ∧ body.value.toNat < n.connection.remoteFlowCredit then
      (n, .invalidArgument)
    else
      (n.modify fun c => countReceived e.now data.length { c with
        remoteFlowCredit := body.value.toNat
        remoteFlowControlReceived := true }, .success)

/-- When the key that a rotation replaced is forgotten: four retransmission timeouts on, and never zero, which stands for never. -/
def previousKeyExpiry (cfg : TransportConfig) (now : UInt64) : UInt64 :=
  let expiry := now + cfg.retransmissionTimeout * 4
  if expiry = 0 then 1 else expiry

/-- The answer to a key update: a new one is acknowledged and then the receive key rotates; one that was answered before is
acknowledged again. -/
def answerKeyUpdate (Γ : Ctx) (e : Env) (n : Node) (keyEpoch requestedEpoch : UInt64) : Node × FtError :=
  let currentEpoch := n.connection.secureChannel.receiveKeyEpoch
  if keyEpoch = currentEpoch ∧ currentEpoch < requestedEpoch then
    match sendKeyUpdateAck Γ e n requestedEpoch with
    | (n, .success) =>
      match n.connection.secureChannel.updateReceiveKeyEpoch Γ.crypto requestedEpoch with
      | .error code => (n, code)
      | .ok ch => (n.modify fun c => { c with secureChannel := ch }, .success)
    | failed => failed
  else if keyEpoch ≠ currentEpoch ∧ requestedEpoch = currentEpoch then sendKeyUpdateAck Γ e n requestedEpoch
  else (n, .invalidArgument)

/-- A key update. -/
def processKeyUpdate (Γ : Ctx) (e : Env) (n : Node) (data : Bytes) : Node × FtError :=
  match readControl data with
  | none => (n, .invalidArgument)
  | some body =>
    if n.connection.secureEnabled = false then (n, .invalidArgument)
    else
      match answerKeyUpdate Γ e n body.keyEpoch body.value with
      | (n, .success) =>
        (n.modify fun c => countReceived e.now data.length { c with
          previousReceiveKeyExpiry := previousKeyExpiry Γ.cfg e.now }, .success)
      | failed => failed

/-- The answer to our own key update: the send key rotates. -/
def processKeyUpdateAck (Γ : Ctx) (e : Env) (n : Node) (data : Bytes) : Node × FtError :=
  match readControl data with
  | none => (n, .invalidArgument)
  | some body =>
    let c := n.connection
    if c.secureEnabled = false ∨ body.keyEpoch ≠ c.secureChannel.receiveKeyEpoch ∨ c.keyUpdatePending = false ∨
        body.value ≠ c.keyUpdateEpoch then (n, .invalidArgument)
    else
      match c.secureChannel.updateSendKeyEpoch Γ.crypto body.value with
      | .error code => (n, code)
      | .ok ch =>
        (n.modify fun c => countReceived e.now data.length { c with
          secureChannel := ch
          keyUpdatePending := false
          keyUpdateEpoch := 0
          keyUpdateSentAt := 0 }, .success)

/-- A path packet: a challenge is answered where it came from, and the answer to our challenge moves the connection there. -/
def processPath (Γ : Ctx) (e : Env) (n : Node) (source : Endpoint) (type : PacketType) (data : Bytes) : Node × FtError :=
  match readPath data with
  | none => (n, .invalidArgument)
  | some body =>
    let c := n.connection
    if c.secureEnabled = false ∧ body.keyEpoch ≠ 0 then (n, .invalidArgument)
    else if type = .pathChallenge then
      let r := sendPathPacket Γ e n .pathResponse source body.token
      (r.1.modify (countReceived e.now data.length), r.2)
    else if c.pathValidationPending = false ∨ c.pendingPath ≠ source ∨ c.pendingPathToken ≠ body.token then
      (n, .permissionDenied)
    else
      let n := n.modify fun c => { c with
        remote := source
        pathValidationPending := false
        pathChallengeSent := 0
        pendingPath := ⟨[]⟩
        pendingPathToken := replicate 8 0
        statistics := { c.statistics with pathMigrations := c.statistics.pathMigrations + 1 } }
      ((n.emitEvent .pathChanged (.code .success)).modify (countReceived e.now data.length), .success)

/-- A frame from another address: the address is challenged, once, and the frame is not read. -/
def challengePath (Γ : Ctx) (e : Env) (n : Node) (source : Endpoint) : Node × FtError :=
  if n.connection.pathValidationPending = true ∧ n.connection.pendingPath = source then (n, .permissionDenied)
  else if e.ok .random = false then (n, .internal)
  else
    let n := n.modify fun c => { c with
      pendingPath := source
      pendingPathToken := e.random
      pathValidationPending := true
      pathChallengeSent := e.now }
    match sendPathPacket Γ e n .pathChallenge source e.random with
    | (n, .success) => (n, .permissionDenied)
    | failed => failed

/-- The text of a close packet, up to its end. -/
def textOf (text : Bytes) : String := String.ofList ((text.takeWhile (· ≠ 0)).map fun byte => Char.ofNat byte.toNat)

/-- A close packet. -/
def processClose (e : Env) (n : Node) (data : Bytes) : Node × FtError :=
  match readClose data with
  | none => (n, .invalidArgument)
  | some body =>
    if (n.connection.secureEnabled = false ∧ body.keyEpoch ≠ 0) ∨ n.connection.state = .closed then (n, .invalidArgument)
    else
      let n := (n.modify (countReceived e.now data.length)).emitEvent .peerClosing (.close body.reason)
        (textOf body.text)
      ((n.modify fun c => { c with state := .closed }).emitEvent .closed (.close body.reason), .success)

/-- An acknowledgement. -/
def processAck (e : Env) (n : Node) (data : Bytes) : Node × FtError :=
  match readAck data with
  | none => (n, .invalidArgument)
  | some body =>
    if n.connection.secureEnabled = false ∧ body.keyEpoch ≠ 0 then (n, .invalidArgument)
    else (n.modify fun c => applyAck e.now c body.largestAcknowledged body.acknowledgedRanges, .success)

/-! ## Frames -/

/-- The list with a run of elements replaced from an offset on. -/
def overwrite {α : Type} (l : List α) (offset : Nat) (xs : List α) : List α :=
  l.take offset ++ (xs ++ l.drop (offset + xs.length))

/-- Whether a byte of a fragment differs from one that was received before. -/
def ReassemblyRecord.conflicts (record : ReassemblyRecord) (offset : Nat) (bytes : Bytes) : Bool :=
  ((record.received.drop offset).zip ((record.payload.drop offset).zip bytes)).any fun (received, old, new) =>
    received && decide (old ≠ new)

/-- A record with the bytes of a fragment; those that were missing are counted. -/
def ReassemblyRecord.store (record : ReassemblyRecord) (offset : Nat) (bytes : Bytes) : ReassemblyRecord :=
  { record with
    payload := overwrite record.payload offset bytes
    received := overwrite record.received offset (replicate bytes.length true)
    receivedCount := record.receivedCount + ((record.received.drop offset).take bytes.length).count false }

/-- The record that a fragment of a new message opens. -/
def ReassemblyRecord.ofFrame (cfg : TransportConfig) (now : UInt64) (delivery : Delivery) (f : FrameBody) : ReassemblyRecord where
  messageId := f.messageId
  sequence := f.sequence
  channel := f.channel
  lane := f.lane
  delivery := delivery
  totalSize := f.totalSize
  fragmentCount := f.fragmentCount
  receivedCount := 0
  expiresAt := now + cfg.idleTimeout
  payload := replicate f.totalSize.toNat 0
  received := replicate f.totalSize.toNat false

/-- The message of a record. -/
def ReassemblyRecord.message (record : ReassemblyRecord) (connectionId : UInt64) : ReceivedMessage :=
  ⟨connectionId, record.channel, record.lane, record.delivery, record.sequence, record.payload⟩

/-- Deliver a message, and tell the application when that gave it one. -/
def deliverAndNotify (e : Env) (n : Node) (message : ReceivedMessage) : Node :=
  let n' := deliver e n message
  if n.received.length < n'.received.length then n'.emitEvent .messageAvailable (.code .success) else n'

/-- Whether there is no room for the record of a new message. The room is what is left of the receive flow credit. -/
def reassemblyFull (cfg : TransportConfig) (c : ConnectionRecord) (totalSize : Nat) : Bool :=
  decide (cfg.maximumReassemblyMessages.toNat ≤ c.reassembly.length) ||
    decide (c.receiveFlowCredit < c.statistics.reassemblyBytes) ||
    decide (c.receiveFlowCredit - c.statistics.reassemblyBytes < totalSize)

/-- The counters and the list of a connection whose record is complete. -/
def completeRecord (index : Nat) (record : ReassemblyRecord) (c : ConnectionRecord) : ConnectionRecord :=
  { c with
    reassembly := c.reassembly.eraseIdx index
    receiveFlowCredit := addCredit c.receiveFlowCredit record.totalSize.toNat
    statistics := { c.statistics with
      reassemblyBytes := c.statistics.reassemblyBytes - record.totalSize.toNat
      reassemblyMessages := c.statistics.reassemblyMessages - 1 } }

/-- A fragment goes into the record at an index, which is delivered when nothing is missing any more. -/
def storeFragment (e : Env) (n : Node) (index : Nat) (record : ReassemblyRecord) (f : FrameBody) : Node × FtError :=
  let offset := f.fragmentOffset.toNat
  if record.totalSize ≠ f.totalSize ∨ record.fragmentCount ≠ f.fragmentCount ∨ record.channel ≠ f.channel ∨
      record.sequence ≠ f.sequence then (n, .invalidArgument)
  else if record.payload.length < offset + f.payload.length then (n, .outOfRange)
  else if record.conflicts offset f.payload = true then (n, .invalidArgument)
  else
    let record := record.store offset f.payload
    let n := n.modify fun c => { c with
      reassembly := c.reassembly.set index record
      statistics := { c.statistics with fragmentsReassembled := c.statistics.fragmentsReassembled + 1 } }
    if record.receivedCount ≠ record.totalSize.toNat then (n, .success)
    else if e.ok .message = false then (n, .noMemory)
    else
      ((deliverAndNotify e n (record.message n.connection.id)).modify (completeRecord index record), .success)

/-- A fragment of a message of several: the record of the message is found or opened. -/
def processFragment (Γ : Ctx) (e : Env) (n : Node) (delivery : Delivery) (f : FrameBody) : Node × FtError :=
  let c := n.connection
  match c.reassembly.findIdx? fun record => decide (record.messageId = f.messageId) with
  | some index =>
    match c.reassembly[index]? with
    | some record => storeFragment e n index record f
    | none => (n, .success)
  | none =>
    if reassemblyFull Γ.cfg c f.totalSize.toNat = true then (n, .full)
    else if e.ok .reassembly = false then (n, .noMemory)
    else
      let record := ReassemblyRecord.ofFrame Γ.cfg e.now delivery f
      storeFragment e (n.modify fun c => { c with
        reassembly := c.reassembly ++ [record]
        statistics := { c.statistics with
          reassemblyBytes := c.statistics.reassemblyBytes + f.totalSize.toNat
          reassemblyMessages := c.statistics.reassemblyMessages + 1 } }) c.reassembly.length record f

/-- The message of a frame that is a message by itself. -/
def FrameBody.message (f : FrameBody) (delivery : Delivery) (connectionId : UInt64) : ReceivedMessage :=
  ⟨connectionId, f.channel, f.lane, delivery, f.sequence, f.payload⟩

/-- A frame whose packet number was recorded and whose acknowledgement was applied. -/
def processPayload (Γ : Ctx) (e : Env) (n : Node) (delivery : Delivery) (f : FrameBody) : Node × FtError :=
  if f.fragmentCount = 1 then
    if e.ok .message = false then (n, .noMemory)
    else (deliverAndNotify e n (f.message delivery n.connection.id), .success)
  else processFragment Γ e n delivery f

/-- Whether the sizes of a frame do not fit together, or its message is too large. -/
def FrameBody.outOfRange (cfg : TransportConfig) (f : FrameBody) : Bool :=
  decide (f.rest.length < f.payloadSize.toNat) || decide (cfg.maximumMessageSize < f.totalSize) ||
    decide (f.fragmentCount = 0) || decide (f.totalSize < f.fragmentOffset) ||
    decide (f.totalSize.toNat - f.fragmentOffset.toNat < f.payloadSize.toNat)

/-- A frame. Its number is recorded for the acknowledgement before anything decides what becomes of its payload. -/
def processFrame (Γ : Ctx) (e : Env) (n : Node) (deliveryValue : UInt8) (data : Bytes) : Node × FtError :=
  match readFrame data, Delivery.ofByte? deliveryValue with
  | some f, some delivery =>
    if n.connection.secureEnabled = false ∧ f.keyEpoch ≠ 0 then (n, .invalidArgument)
    else if n.connection.state ≠ .connected then (n, .invalidHandle)
    else if f.outOfRange Γ.cfg = true then (n, .outOfRange)
    else
      processPayload Γ e (n.modify fun c =>
        applyAck e.now ((countReceived e.now data.length c).recordReceived f.packetNumber) f.largestAcknowledged
          f.acknowledgedRanges) delivery f
  | _, _ => (n, .invalidArgument)

/-! ## The packet of a connection -/

/-- The types that are read also from another address than the peer's. -/
def PacketType.isFromAnywhere : PacketType → Bool
  | .frame | .pathChallenge | .pathResponse => true
  | _ => false

/-- A packet that was opened. -/
def processOpened (Γ : Ctx) (e : Env) (n : Node) (source : Endpoint) (type : PacketType) (flag : UInt8) (data : Bytes) :
    Node × FtError :=
  match type with
  | .flowControl => processFlowControl e n data
  | .keyUpdate => processKeyUpdate Γ e n data
  | .keyUpdateAck => processKeyUpdateAck Γ e n data
  | .pathChallenge => processPath Γ e n source .pathChallenge data
  | .pathResponse => processPath Γ e n source .pathResponse data
  | .close => if n.connection.remote ≠ source then challengePath Γ e n source else processClose e n data
  | .ack => if n.connection.remote ≠ source then challengePath Γ e n source else processAck e n data
  | .frame => if n.connection.remote ≠ source then challengePath Γ e n source else processFrame Γ e n flag data
  | .handshakeHello | .handshakeFinished | .handshakeRetry => (n, .invalidArgument)

/-- `process_datagram`, for a packet that is not of the handshake and whose connection was found. -/
def processPacket (Γ : Ctx) (e : Env) (n : Node) (source : Endpoint) (type : PacketType) (flag : UInt8) (data : Bytes) :
    Node × FtError :=
  let c := n.connection
  if c.state ≠ .connected ∧ c.state ≠ .draining then (n, .permissionDenied)
  else if c.remote ≠ source ∧ type.isFromAnywhere = false then (n, .permissionDenied)
  else
    match openDatagram Γ e n type data with
    | .error code => (n, code)
    | .ok (data, n) => processOpened Γ e n source type flag data

/-! ## Handshake packets -/

/-- The client says hello again, with the cookie. -/
def retryWithCookie (Γ : Ctx) (e : Env) (n : Node) (cookie : Bytes) : Node × FtError :=
  match n.connection.handshake.setRetryCookie cookie with
  | .error code => (n, code)
  | .ok handshake => sendHandshakeHello Γ e (n.modify fun c => { c with handshake := handshake })

/-- A retry. -/
def processRetry (Γ : Ctx) (e : Env) (n : Node) (cookie : Bytes) (size : Nat) : Node × FtError :=
  let c := n.connection
  if c.state ≠ .handshaking ∨ c.handshake.role ≠ .client ∨ cookie.length ≠ cookieSize then (n, .invalidState)
  else
    let r := retryWithCookie Γ e n cookie
    let n := if r.2 = .success then r.1.modify fun c => { c with handshakeAttempts := c.handshakeAttempts + 1 } else r.1
    (n.modify (countReceived e.now size), r.2)

/-- The pinned key, if there is one, is that of the peer. -/
def checkPinnedKey (Γ : Ctx) (handshake : Handshake) : FtError :=
  if Γ.cfg.enablePeerKeyPinning = false then .success
  else
    match handshake.getPeerPublicKey with
    | .error code => code
    | .ok key => if key ≠ Γ.cfg.pinnedPeerPublicKey then .permissionDenied else .success

/-- Derive the session keys and start the channel with them. -/
def installKeys (Γ : Ctx) (c : ConnectionRecord) : ConnectionRecord × FtError :=
  match c.handshake.deriveKeys Γ.crypto with
  | (handshake, .success) =>
    let c := { c with handshake := handshake }
    match handshake.getTrafficKeys with
    | .error code => (c, code)
    | .ok (sendKey, receiveKey) =>
      match c.secureChannel.initializeDirectional sendKey receiveKey with
      | .error code => (c, code)
      | .ok ch => ({ c with secureChannel := ch }, .success)
  | (handshake, code) => ({ c with handshake := handshake }, code)

/-- A hello that the handshake looks at: it is accepted, or was accepted before, and a new one gives the keys. -/
def acceptHello (Γ : Ctx) (c : ConnectionRecord) (hello : Bytes) : ConnectionRecord × FtError :=
  match c.handshake.acceptPeerHello hello with
  | .error code => (c, code)
  | .ok handshake =>
    let c := { c with handshake := handshake }
    if handshake.state ≠ .peerHelloAccepted then (c, .success)
    else
      match checkPinnedKey Γ handshake with
      | .success => installKeys Γ c
      | code => (c, code)

/-- The answer of a server that was accepted: its own hello and finished message. -/
def answerHello (Γ : Ctx) (e : Env) (n : Node) : Node × FtError :=
  match sendHandshakeHello Γ e n with
  | (n, .success) =>
    match sendHandshakeFinished Γ e n with
    | (n, .success) => (n.modify fun c => { c with handshakeAttempts := 1 }, .success)
    | failed => failed
  | failed => failed

/-- A hello for a connection. One that is not accepted fails the connection, also an established one. -/
def processHello (Γ : Ctx) (e : Env) (n : Node) (source : Endpoint) (hello : Bytes) (size : Nat) : Node × FtError :=
  let c := n.connection
  if hello.length ≠ helloSize ∧ hello.length ≠ helloSize + cookieSize then (n, .invalidArgument)
  else if c.state ≠ .handshaking ∧ c.state ≠ .connected then (n, .invalidState)
  else if c.remote ≠ source then (n, .permissionDenied)
  else
    let a := acceptHello Γ c hello
    let n := n.modify fun _ => a.1
    let r :=
      if a.2 = .success ∧ n.connection.handshake.role = .server ∧ n.connection.incomingPending = false then answerHello Γ e n
      else (n, a.2)
    let n :=
      if r.2 = .success then r.1
      else (r.1.modify fun c => { c with
        state := .failed
        statistics := { c.statistics with authenticationFailures := c.statistics.authenticationFailures + 1 } }).emitEvent
          .failed (.code r.2) "handshake failed"
    (n.modify (countReceived e.now size), r.2)

/-- A finished message. One that is not the peer's fails the connection, also an established one, wherever it came from. -/
def processFinished (Γ : Ctx) (e : Env) (n : Node) (finished : Bytes) (size : Nat) : Node × FtError :=
  let c := n.connection
  if (c.state ≠ .handshaking ∧ c.state ≠ .connected) ∨ finished.length ≠ 32 then (n, .invalidArgument)
  else
    let v := c.handshake.verifyFinished Γ.crypto finished
    let n := n.modify fun c => { c with handshake := v.1 }
    if v.2 ≠ .success then
      ((n.modify fun c => { c with
        state := .failed
        statistics := { c.statistics with authenticationFailures := c.statistics.authenticationFailures + 1 } }).emitEvent
          .failed (.code v.2) "finished authentication failed", .permissionDenied)
    else
      let r :=
        if c.handshake.role = .client ∧ c.finishedSent = false then sendHandshakeFinished Γ e n else (n, .success)
      let n :=
        if r.2 = .success then
          let n := if r.1.connection.state ≠ .connected then r.1.emitEvent .connected (.code .success) else r.1
          n.modify fun c => { c with state := .connected }
        else r.1
      let n := n.modify (countReceived e.now size)
      if r.2 = .success then (n, .success)
      else
        ((n.modify fun c => { c with state := .failed }).emitEvent .failed (.code r.2) "finished verification failed", r.2)

/-- `process_handshake_datagram`, for a connection that was found. -/
def processHandshake (Γ : Ctx) (e : Env) (n : Node) (source : Endpoint) (type : PacketType) (data : Bytes) : Node × FtError :=
  if Γ.cfg.enableAuthenticatedHandshake = false then (n, .invalidArgument)
  else
    match readHandshakePayload data with
    | none => (n, .invalidArgument)
    | some payload =>
      match type with
      | .handshakeRetry => processRetry Γ e n payload data.length
      | .handshakeHello => processHello Γ e n source payload data.length
      | _ => processFinished Γ e n payload data.length

/-- `process_datagram`, for a datagram that names the connection of the node. -/
def processDatagram (Γ : Ctx) (e : Env) (n : Node) (source : Endpoint) (data : Bytes) : Node × FtError :=
  match readHeader data with
  | none => (n, .invalidArgument)
  | some header =>
    if header.connectionId ≠ n.connection.id then (n, .invalidHandle)
    else if header.type.isHandshake = true then processHandshake Γ e n source header.type data
    else processPacket Γ e n source header.type header.flag data

end Libft.Networking
