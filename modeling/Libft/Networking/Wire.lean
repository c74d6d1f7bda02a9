import Libft.Networking.Defs

/-!
# The wire format

The encoders of `networking_message_transport.cpp` and the readers with which `process_datagram` takes the packets apart again. A
packet is four bytes (magic, version, type, and the delivery mode of a frame or zero), the connection id, and what its type says.
The epoch stands in every packet that can be protected, with the packet number right before it, so that both can be read before
anything is decrypted.
-/

namespace Libft.Networking

open Bytes List UInt8 CloseReason

/-- `NETWORKING_MESSAGE_MAGIC`. -/
def packetMagic : UInt8 := 0x4c

/-- `NETWORKING_MESSAGE_VERSION`. -/
def packetVersion : UInt8 := 1

/-- The packet types, `NETWORKING_MESSAGE_FRAME` to `NETWORKING_MESSAGE_KEY_UPDATE_ACK`. -/
inductive PacketType where
  | frame | ack | close | handshakeHello | handshakeFinished | handshakeRetry | pathChallenge | pathResponse | flowControl
  | keyUpdate | keyUpdateAck
  deriving DecidableEq, Repr

namespace PacketType

/-- The value of a type on the wire. -/
def toByte : PacketType → UInt8
  | .frame => 1
  | .ack => 2
  | .close => 3
  | .handshakeHello => 4
  | .handshakeFinished => 5
  | .handshakeRetry => 6
  | .pathChallenge => 7
  | .pathResponse => 8
  | .flowControl => 9
  | .keyUpdate => 10
  | .keyUpdateAck => 11

/-- The type of a wire value, if it is one. -/
def ofByte? (value : UInt8) : Option PacketType :=
  if value = 1 then some .frame
  else if value = 2 then some .ack
  else if value = 3 then some .close
  else if value = 4 then some .handshakeHello
  else if value = 5 then some .handshakeFinished
  else if value = 6 then some .handshakeRetry
  else if value = 7 then some .pathChallenge
  else if value = 8 then some .pathResponse
  else if value = 9 then some .flowControl
  else if value = 10 then some .keyUpdate
  else if value = 11 then some .keyUpdateAck
  else none

@[simp] theorem ofByte?_toByte (type : PacketType) : ofByte? type.toByte = some type := by
  cases type <;> rfl

/-- The types that the handshake reads. -/
def isHandshake : PacketType → Bool
  | .handshakeHello | .handshakeFinished | .handshakeRetry => true
  | _ => false

/-- The bytes of a packet that are authenticated and not encrypted: up to and with the epoch. -/
def associatedDataLength : PacketType → Nat
  | .frame | .handshakeHello | .handshakeFinished | .handshakeRetry => 36
  | .ack | .close | .pathChallenge | .pathResponse | .flowControl | .keyUpdate | .keyUpdateAck => 28

/-- Where the packet number stands: a frame has its message id first. -/
def packetNumberOffset : PacketType → Nat
  | .frame | .handshakeHello | .handshakeFinished | .handshakeRetry => 20
  | .ack | .close | .pathChallenge | .pathResponse | .flowControl | .keyUpdate | .keyUpdateAck => 12

end PacketType

/-- The four bytes every packet starts with, and the connection id. -/
def encodeHeader (type : PacketType) (flag : UInt8) (connectionId : UInt64) : Bytes :=
  packetMagic :: packetVersion :: type.toByte :: flag :: writeU64 connectionId

/-! ## Acknowledged ranges -/

/-- How far the start and the end of a range are below the largest number; zero and zero for a range that is out of reach. -/
def ackDelta (largestReceived : UInt64) (range : AckRange) : UInt16 × UInt16 :=
  if range.start ≤ largestReceived ∧ largestReceived - range.start ≤ 65535 ∧
      range.end_ ≤ largestReceived ∧ largestReceived - range.end_ ≤ 65535 then
    ((largestReceived - range.start).toUInt16, (largestReceived - range.end_).toUInt16)
  else (0, 0)

/-- The distances of the four range slots, with zeros in those not in use. -/
def ackDeltas (largestReceived : UInt64) (ranges : List AckRange) : List (UInt16 × UInt16) :=
  (List.range ackRangeLimit).map fun index => (ranges[index]?).elim (0, 0) (ackDelta largestReceived)

/-- The acknowledgement block: the number of ranges, then the four slots. -/
def encodeAckRanges (largestReceived : UInt64) (ranges : List AckRange) : Bytes :=
  UInt8.ofNat ranges.length :: (ackDeltas largestReceived ranges).flatMap fun delta => writeU16 delta.1 ++ writeU16 delta.2

/-- Read that many slots; a slot whose start is nearer than its end is refused. -/
def readAckDeltas : Nat → Bytes → Option (List (UInt16 × UInt16) × Bytes)
  | 0, data => some ([], data)
  | slots + 1, data => do
    let (start, data) ← readU16 data
    let (end_, data) ← readU16 data
    if start < end_ then none
    let (deltas, data) ← readAckDeltas slots data
    return ((start, end_) :: deltas, data)

/-- `read_ack_ranges`: the slots in use. -/
def readAckRanges (data : Bytes) : Option (List (UInt16 × UInt16) × Bytes) := do
  let (rangeCount, data) ← readU8 data
  if rangeCount.toNat > ackRangeLimit then none
  let (deltas, data) ← readAckDeltas ackRangeLimit data
  return (deltas.take rangeCount.toNat, data)

/-! ## Packets -/

/-- The bytes of a frame packet. -/
def framePacket (frame : OutgoingFrame) (connectionId packetNumber keyEpoch largestReceived : UInt64)
    (receivedRanges : List AckRange) : Bytes :=
  encodeHeader .frame frame.delivery.toByte connectionId ++ (writeU64 frame.messageId ++ (writeU64 packetNumber ++
    (writeU64 keyEpoch ++ (writeU64 largestReceived ++ (encodeAckRanges largestReceived receivedRanges ++
    (writeU32 frame.channel ++ (frame.lane :: frame.fragmentCount :: (writeU32 frame.totalSize ++ (writeU32 frame.offset ++
    (writeU64 frame.sequence ++ (writeU16 (UInt16.ofNat frame.payload.length) ++ frame.payload)))))))))))

/-- `encode_frame`. -/
def encodeFrame (frame : OutgoingFrame) (connectionId packetNumber keyEpoch largestReceived : UInt64)
    (receivedRanges : List AckRange) (maximumSize : Nat) : Option Bytes :=
  if frame.payload.length > 65535 ∨ receivedRanges.length > ackRangeLimit then none
  else if (framePacket frame connectionId packetNumber keyEpoch largestReceived receivedRanges).length ≤ maximumSize then
    some (framePacket frame connectionId packetNumber keyEpoch largestReceived receivedRanges)
  else none

/-- `encode_ack`. -/
def encodeAck (connectionId packetNumber keyEpoch largestReceived : UInt64) (receivedRanges : List AckRange) : Bytes :=
  encodeHeader .ack 0 connectionId ++ (writeU64 packetNumber ++ (writeU64 keyEpoch ++ (writeU64 largestReceived ++
    encodeAckRanges largestReceived receivedRanges)))

/-- The shape that flow control, key update and key update acknowledgement packets share: one word behind the epoch. -/
def encodeControl (type : PacketType) (connectionId packetNumber keyEpoch value : UInt64) : Bytes :=
  encodeHeader type 0 connectionId ++ (writeU64 packetNumber ++ (writeU64 keyEpoch ++ writeU64 value))

/-- The bytes of a path packet. -/
def pathPacket (type : PacketType) (connectionId packetNumber keyEpoch : UInt64) (token : Bytes) : Bytes :=
  encodeHeader type 0 connectionId ++ (writeU64 packetNumber ++ (writeU64 keyEpoch ++ token))

/-- `encode_path`. -/
def encodePath (type : PacketType) (connectionId packetNumber keyEpoch : UInt64) (token : Bytes) (maximumSize : Nat) :
    Option Bytes :=
  if (type ≠ .pathChallenge ∧ type ≠ .pathResponse) ∨ maximumSize < 36 then none
  else if (pathPacket type connectionId packetNumber keyEpoch token).length ≤ maximumSize then
    some (pathPacket type connectionId packetNumber keyEpoch token)
  else none

/-- `encode_flow_control`. -/
def encodeFlowControl (connectionId packetNumber keyEpoch receiveCredit : UInt64) (maximumSize : Nat) : Option Bytes :=
  if maximumSize < 36 then none else some (encodeControl .flowControl connectionId packetNumber keyEpoch receiveCredit)

/-- `encode_key_update`. -/
def encodeKeyUpdate (connectionId packetNumber keyEpoch nextEpoch : UInt64) (maximumSize : Nat) : Option Bytes :=
  if maximumSize < 36 ∨ nextEpoch ≤ keyEpoch then none
  else some (encodeControl .keyUpdate connectionId packetNumber keyEpoch nextEpoch)

/-- `encode_key_update_ack`. -/
def encodeKeyUpdateAck (connectionId packetNumber keyEpoch acknowledgedEpoch : UInt64) (maximumSize : Nat) : Option Bytes :=
  if maximumSize < 36 ∨ acknowledgedEpoch = 0 then none
  else some (encodeControl .keyUpdateAck connectionId packetNumber keyEpoch acknowledgedEpoch)

/-- The bytes of a close packet. -/
def closePacket (connectionId packetNumber keyEpoch : UInt64) (reason : CloseReason) (text : Bytes) : Bytes :=
  encodeHeader .close 0 connectionId ++ (writeU64 packetNumber ++ (writeU64 keyEpoch ++
    (writeU16 reason ++ (UInt8.ofNat text.length :: text))))

/-- `encode_close`: at most 95 bytes of text, up to its end. -/
def encodeClose (connectionId packetNumber keyEpoch : UInt64) (reason : CloseReason) (debugText : Bytes) (maximumSize : Nat) :
    Option Bytes :=
  let text := (debugText.takeWhile (· ≠ 0)).take 95
  if (closePacket connectionId packetNumber keyEpoch reason text).length ≤ maximumSize then
    some (closePacket connectionId packetNumber keyEpoch reason text)
  else none

/-- `encode_handshake`. -/
def encodeHandshake (type : PacketType) (connectionId : UInt64) (payload : Bytes) (maximumSize : Nat) : Option Bytes :=
  if payload.length > 65535 ∨ 4 + 8 + 2 + payload.length > maximumSize then none
  else some (encodeHeader type 0 connectionId ++ (writeU16 (UInt16.ofNat payload.length) ++ payload))

/-! ## Readers

Each reads the whole packet, behind the four bytes it starts with. -/

/-- What a flow control, key update or key update acknowledgement packet says. -/
structure ControlBody where
  connectionId : UInt64
  packetNumber : UInt64
  keyEpoch : UInt64
  value : UInt64
  deriving DecidableEq, Repr

/-- The reads of `process_datagram` for the three control packets: nothing may follow. -/
def readControl (data : Bytes) : Option ControlBody := do
  let (connectionId, data) ← readU64 (data.drop 4)
  let (packetNumber, data) ← readU64 data
  let (keyEpoch, data) ← readU64 data
  let (value, data) ← readU64 data
  if data = [] then some ⟨connectionId, packetNumber, keyEpoch, value⟩ else none

/-- What a path packet says. -/
structure PathBody where
  connectionId : UInt64
  packetNumber : UInt64
  keyEpoch : UInt64
  token : Bytes
  deriving DecidableEq, Repr

/-- The reads of `process_datagram` for a path packet: the token is all that is left. -/
def readPath (data : Bytes) : Option PathBody := do
  let (connectionId, data) ← readU64 (data.drop 4)
  let (packetNumber, data) ← readU64 data
  let (keyEpoch, data) ← readU64 data
  if data.length = 8 then some ⟨connectionId, packetNumber, keyEpoch, data⟩ else none

/-- What a close packet says. -/
structure CloseBody where
  connectionId : UInt64
  packetNumber : UInt64
  keyEpoch : UInt64
  reason : CloseReason
  text : Bytes
  deriving DecidableEq, Repr

/-- The reads of `process_datagram` for a close packet: the text is all that is left, it fits its buffer, and the reason is one of
the named ones. -/
def readClose (data : Bytes) : Option CloseBody := do
  let (connectionId, data) ← readU64 (data.drop 4)
  let (packetNumber, data) ← readU64 data
  let (keyEpoch, data) ← readU64 data
  let (reason, data) ← readU16 data
  let (textLength, data) ← readU8 data
  if textLength.toNat = data.length ∧ textLength < 96 ∧ reason ≤ internalError then
    some ⟨connectionId, packetNumber, keyEpoch, reason, data⟩
  else none

/-- What an acknowledgement says, with the bytes behind its ranges. -/
structure AckBody where
  connectionId : UInt64
  packetNumber : UInt64
  keyEpoch : UInt64
  largestAcknowledged : UInt64
  acknowledgedRanges : List (UInt16 × UInt16)
  rest : Bytes
  deriving DecidableEq, Repr

/-- The reads of `process_datagram` for an acknowledgement, which allow bytes behind it. -/
def readAck (data : Bytes) : Option AckBody := do
  let (connectionId, data) ← readU64 (data.drop 4)
  let (packetNumber, data) ← readU64 data
  let (keyEpoch, data) ← readU64 data
  let (largestAcknowledged, data) ← readU64 data
  let (ranges, rest) ← readAckRanges data
  return ⟨connectionId, packetNumber, keyEpoch, largestAcknowledged, ranges, rest⟩

/-- What a frame says, with the bytes behind its header, of which the first `payloadSize` are the payload. -/
structure FrameBody where
  connectionId : UInt64
  messageId : UInt64
  packetNumber : UInt64
  keyEpoch : UInt64
  largestAcknowledged : UInt64
  acknowledgedRanges : List (UInt16 × UInt16)
  channel : UInt32
  lane : UInt8
  fragmentCount : UInt8
  totalSize : UInt32
  fragmentOffset : UInt32
  sequence : UInt64
  payloadSize : UInt16
  rest : Bytes
  deriving DecidableEq, Repr

/-- The payload of a frame. -/
def FrameBody.payload (f : FrameBody) : Bytes := f.rest.take f.payloadSize.toNat

/-- The reads of `process_datagram` for a frame. -/
def readFrame (data : Bytes) : Option FrameBody := do
  let (connectionId, data) ← readU64 (data.drop 4)
  let (messageId, data) ← readU64 data
  let (packetNumber, data) ← readU64 data
  let (keyEpoch, data) ← readU64 data
  let (largestAcknowledged, data) ← readU64 data
  let (ranges, data) ← readAckRanges data
  let (channel, data) ← readU32 data
  let (lane, data) ← readU8 data
  let (fragmentCount, data) ← readU8 data
  let (totalSize, data) ← readU32 data
  let (fragmentOffset, data) ← readU32 data
  let (sequence, data) ← readU64 data
  let (payloadSize, data) ← readU16 data
  return ⟨connectionId, messageId, packetNumber, keyEpoch, largestAcknowledged, ranges, channel, lane, fragmentCount, totalSize,
    fragmentOffset, sequence, payloadSize, data⟩

/-! ## Reading what was written -/

@[simp] theorem length_encodeHeader (type : PacketType) (flag : UInt8) (id : UInt64) : (encodeHeader type flag id).length = 12 := by
  simp [encodeHeader]

@[simp] theorem drop_encodeHeader (type : PacketType) (flag : UInt8) (id : UInt64) (tl : Bytes) :
    (encodeHeader type flag id ++ tl).drop 4 = writeU64 id ++ tl := rfl

variable {ranges : List AckRange} {largest n id epoch : UInt64} {token packet : Bytes} {maximumSize : Nat}

/-- The slots that are in use are the ranges. -/
theorem take_ackDeltas (largest : UInt64) (h : ranges.length ≤ ackRangeLimit) :
    (ackDeltas largest ranges).take ranges.length = ranges.map (ackDelta largest) := by
  apply ext_getElem
  · simpa [ackDeltas] using h
  · intro i h1 h2
    have hi : i < ranges.length := by simpa using h2
    simp [ackDeltas, hi]

/-- Slots whose start is at least as far as their end are read back. -/
theorem readAckDeltas_flatMap (deltas : List (UInt16 × UInt16)) (tl : Bytes) (h : ∀ d ∈ deltas, d.2 ≤ d.1) :
    readAckDeltas deltas.length ((deltas.flatMap fun delta => writeU16 delta.1 ++ writeU16 delta.2) ++ tl) =
      some (deltas, tl) := by
  induction deltas with
  | nil => rfl
  | cons d deltas ih =>
    have hd : ¬d.1 < d.2 := UInt16.not_lt.2 (h d mem_cons_self)
    simp [readAckDeltas, hd, ih (forall_mem_cons.mp h).2]

/-- A distance that fits sixteen bits, as a number. -/
theorem toNat_distance (h : n ≤ largest) (hf : largest - n ≤ 65535) : (largest - n).toUInt16.toNat = largest.toNat - n.toNat := by
  have hs := UInt64.toNat_sub_of_le _ _ h
  have hle : (largest - n).toNat ≤ 65535 := UInt64.le_iff_toNat_le.1 hf
  rw [UInt64.toNat_toUInt16, hs]
  omega

/-- A range with its ends the right way round has a slot whose start is at least as far as its end. -/
theorem ackDelta_le (largest : UInt64) {range : AckRange} (h : range.start ≤ range.end_) :
    (ackDelta largest range).2 ≤ (ackDelta largest range).1 := by
  unfold ackDelta
  split
  · rename_i hr
    rw [UInt16.le_iff_toNat_le, toNat_distance hr.1 hr.2.1, toNat_distance hr.2.2.1 hr.2.2.2]
    exact Nat.sub_le_sub_left (UInt64.le_iff_toNat_le.1 h) _
  · simp

/-- An acknowledgement block is read back as the distances of its ranges. -/
theorem readAckRanges_encode (largest : UInt64) (tl : Bytes) (hl : ranges.length ≤ ackRangeLimit)
    (h : ∀ range ∈ ranges, range.start ≤ range.end_) :
    readAckRanges (encodeAckRanges largest ranges ++ tl) = some (ranges.map (ackDelta largest), tl) := by
  have hc : (ofNat ranges.length).toNat = ranges.length := by
    apply toNat_ofNat_of_lt
    exact Nat.lt_of_le_of_lt hl (by decide)
  have hle : ∀ d ∈ ackDeltas largest ranges, d.2 ≤ d.1 := by
    intro d hd
    obtain ⟨i, -, rfl⟩ := mem_map.1 hd
    cases hi : ranges[i]? with
    | none => simp
    | some range => exact ackDelta_le largest (h range (mem_of_getElem? hi))
  have hdl := readAckDeltas_flatMap (ackDeltas largest ranges) tl hle
  rw [show (ackDeltas largest ranges).length = ackRangeLimit by simp [ackDeltas]] at hdl
  simp [readAckRanges, encodeAckRanges, hc, Nat.not_lt.2 hl, hdl, take_ackDeltas largest hl]

@[simp] theorem readControl_encode (type : PacketType) (id n epoch v : UInt64) :
    readControl (encodeControl type id n epoch v) = some ⟨id, n, epoch, v⟩ := by
  simp [readControl, encodeControl]

theorem readPath_pathPacket (type : PacketType) (id n epoch : UInt64) (h : token.length = 8) :
    readPath (pathPacket type id n epoch token) = some ⟨id, n, epoch, token⟩ := by
  simp [readPath, pathPacket, h]

theorem readClose_closePacket (id n epoch : UInt64) {rsn : CloseReason} {text : Bytes} (ht : text.length < 96)
    (hr : rsn ≤ internalError) : readClose (closePacket id n epoch rsn text) = some ⟨id, n, epoch, rsn, text⟩ := by
  have hl : (ofNat text.length).toNat = text.length := toNat_ofNat_of_lt (by simp only [size]; omega)
  have hlt : ofNat text.length < 96 := lt_iff_toNat_lt.2 (by rw [hl]; exact ht)
  simp [readClose, closePacket, hl, hlt, hr]

theorem readAck_encode (id n epoch largest : UInt64) (hl : ranges.length ≤ ackRangeLimit)
    (h : ∀ range ∈ ranges, range.start ≤ range.end_) :
    readAck (encodeAck id n epoch largest ranges) = some ⟨id, n, epoch, largest, ranges.map (ackDelta largest), []⟩ := by
  have hr := readAckRanges_encode largest [] hl h
  rw [append_nil] at hr
  simp [readAck, encodeAck, hr]

/-- A frame is read back whole, with its payload as what is left. -/
theorem readFrame_framePacket (frame : OutgoingFrame) (id n epoch largest : UInt64)
    (hl : ranges.length ≤ ackRangeLimit) (h : ∀ range ∈ ranges, range.start ≤ range.end_) :
    readFrame (framePacket frame id n epoch largest ranges) =
      some ⟨id, frame.messageId, n, epoch, largest, ranges.map (ackDelta largest), frame.channel, frame.lane,
        frame.fragmentCount, frame.totalSize, frame.offset, frame.sequence, UInt16.ofNat frame.payload.length,
        frame.payload⟩ := by
  have hr (tl : Bytes) (f : List (UInt16 × UInt16) × Bytes → Option FrameBody) :
      (readAckRanges (encodeAckRanges largest ranges ++ tl) >>= f) = f (ranges.map (ackDelta largest), tl) := by
    rw [readAckRanges_encode largest tl hl h]
    rfl
  -- the reads are undone from the front: what follows a read is only looked at when its value is known
  simp only [↓readU64_write_bind, ↓readU32_write_bind, ↓readU16_write_bind, ↓readU8_cons_bind, ↓hr, readFrame, framePacket,
    drop_encodeHeader, Option.pure_def]

/-! ## What the encoders give -/

theorem encodeFrame_eq_some {frame : OutgoingFrame} (h : encodeFrame frame id n epoch largest ranges maximumSize = some packet) :
    packet = framePacket frame id n epoch largest ranges ∧ frame.payload.length ≤ 65535 ∧ ranges.length ≤ ackRangeLimit := by
  unfold encodeFrame at h
  split at h
  · cases h
  rename_i hs
  split at h
  · cases h
    exact ⟨rfl, by omega, by omega⟩
  · cases h

theorem encodePath_eq_some {type : PacketType} (h : encodePath type id n epoch token maximumSize = some packet) :
    packet = pathPacket type id n epoch token ∧ (type = .pathChallenge ∨ type = .pathResponse) := by
  unfold encodePath at h
  split at h
  · cases h
  rename_i ht
  split at h
  · cases h
    exact ⟨rfl, by tauto⟩
  · cases h

end Libft.Networking
