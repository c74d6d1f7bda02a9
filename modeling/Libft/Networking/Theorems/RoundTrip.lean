import Libft.Networking.Lemmas.Fragments

/-!
# Reading back what was written

Every encoder of the transport against the reads of `process_datagram` for its packet type: what was written is read, and nothing is
left over. Two things are written in part only, by design: a range that is more than sixteen bits below the largest number, for which
two zeros stand, and the text of a close behind its first ninety-five bytes.
-/

namespace Libft.Networking

open Bytes Option List AckRange UInt16
open PacketType (packetNumberOffset minimumSize)

/-! ## Writing -/

/-- The encoder of each packet type. -/
def encodePacket (id number epoch : UInt64) (maximumSize : Nat) : Packet → Option Bytes
  | .frame frame largest ranges => encodeFrame frame id number epoch largest ranges maximumSize
  | .ack largest ranges => some (encodeAck id number epoch largest ranges)
  | .close reason text => encodeClose id number epoch reason text maximumSize
  | .pathChallenge token => encodePath .pathChallenge id number epoch token maximumSize
  | .pathResponse token => encodePath .pathResponse id number epoch token maximumSize
  | .flowControl credit => encodeFlowControl id number epoch credit maximumSize
  | .keyUpdate next => encodeKeyUpdate id number epoch next maximumSize
  | .keyUpdateAck acknowledged => encodeKeyUpdateAck id number epoch acknowledged maximumSize

/-- The values that the types and the callers of the encoders allow: four ranges at most, with their ends the right way round, as
`record_packet` keeps them; a named reason; a token of eight bytes. -/
def Packet.Allowed : Packet → Prop
  | .frame _ _ ranges => ∀ range ∈ ranges, range.start ≤ range.end_
  | .ack _ ranges => ranges.length ≤ ackRangeLimit ∧ ∀ range ∈ ranges, range.start ≤ range.end_
  | .close reason _ => reason ≤ CloseReason.internalError
  | .pathChallenge token | .pathResponse token => token.length = 8
  | _ => True

/-- The text of a close that is written. -/
def closeText (text : Bytes) : Bytes := (text.takeWhile (· ≠ 0)).take 95

/-! ## Reading -/

/-- What a packet says. -/
inductive Reading where
  | frame (delivery : Delivery) (body : FrameBody)
  | ack (body : AckBody)
  | close (body : CloseBody)
  | path (body : PathBody)
  | control (body : ControlBody)
  deriving DecidableEq

/-- The reads of `process_datagram` for a packet of a type, and the bytes they leave. Where the source checks that nothing is left,
nothing is; a frame is read up to the end of its payload, and an acknowledgement up to the end of its ranges. -/
def readPacket (data : Bytes) (flag : UInt8) : PacketType → Option (Reading × Bytes)
  | .frame => do
    let body ← readFrame data
    let delivery ← Delivery.ofByte? flag
    return (.frame delivery body, body.rest.drop body.payloadSize.toNat)
  | .ack => (readAck data).map fun body => (.ack body, body.rest)
  | .close => (readClose data).map fun body => (.close body, [])
  | .pathChallenge | .pathResponse => (readPath data).map fun body => (.path body, [])
  | .flowControl | .keyUpdate | .keyUpdateAck => (readControl data).map fun body => (.control body, [])
  | .handshakeHello | .handshakeFinished | .handshakeRetry => none

/-- What is to be read of a packet. -/
def Packet.reading (id number epoch : UInt64) : Packet → Reading
  | .frame f largest ranges => .frame f.delivery
      ⟨id, f.messageId, number, epoch, largest, ranges.map (ackDelta largest), f.channel, f.lane, f.fragmentCount, f.totalSize,
        f.offset, f.sequence, UInt16.ofNat f.payload.length, f.payload⟩
  | .ack largest ranges => .ack ⟨id, number, epoch, largest, ranges.map (ackDelta largest), []⟩
  | .close reason text => .close ⟨id, number, epoch, reason, closeText text⟩
  | .pathChallenge token | .pathResponse token => .path ⟨id, number, epoch, token⟩
  | .flowControl value | .keyUpdate value | .keyUpdateAck value => .control ⟨id, number, epoch, value⟩

/-! ## Ranges -/

/-- The range whose start and end are that far below the largest number. -/
def AckRange.ofDelta (largest : UInt64) (delta : UInt16 × UInt16) : AckRange :=
  ⟨largest - delta.1.toUInt64, largest - delta.2.toUInt64⟩

/-- A range that can be written as two distances of sixteen bits. -/
def AckRange.InReach (largest : UInt64) (range : AckRange) : Prop :=
  range.start ≤ largest ∧ largest - range.start ≤ 65535 ∧ range.end_ ≤ largest ∧ largest - range.end_ ≤ 65535

variable {largest : UInt64}

/-- A distance of sixteen bits leads back. -/
theorem sub_distance {n : UInt64} (h : n ≤ largest) (hf : largest - n ≤ 65535) : largest - (largest - n).toUInt16.toUInt64 = n := by
  have hw : (largest - n).toUInt16.toUInt64 = largest - n := by
    rw [← UInt64.toNat_inj, toNat_toUInt64, toNat_distance h hf, UInt64.toNat_sub_of_le _ _ h]
  rw [hw]
  grind

variable {range : AckRange}

theorem AckRange.ofDelta_ackDelta (h : range.InReach largest) : ofDelta largest (ackDelta largest range) = range := by
  obtain ⟨hs, hf, he, hf'⟩ := h
  rw [ackDelta, if_pos ⟨hs, hf, he, hf'⟩, ofDelta, sub_distance hs hf, sub_distance he hf']

theorem AckRange.ackDelta_of_not_inReach (h : ¬range.InReach largest) :
    ackDelta largest range = (0, 0) := if_neg h

/-! ## Packet by packet -/

/-- A packet with what is written of it. -/
def Packet.written : Packet → Packet
  | .close reason text => .close reason (closeText text)
  | p => p

@[simp] theorem Packet.type_written (p : Packet) : p.written.type = p.type := by
  cases p <;> rfl

@[simp] theorem Packet.flag_written (p : Packet) : p.written.flag = p.flag := by
  cases p <;> rfl

@[simp] theorem Packet.isKeyUpdate_written (p : Packet) : p.written.isKeyUpdate = p.isKeyUpdate := by
  cases p <;> rfl

theorem Packet.Allowed.written {p : Packet} (h : p.Allowed) : p.written.Allowed := by
  cases p <;> exact h

section Packets

variable {p : Packet} {id number epoch : UInt64} {maximumSize : Nat} {bytes : Bytes}

/-- The encoders write the packet, and refuse only what does not fit. -/
theorem encodePacket_eq_some (h : encodePacket id number epoch maximumSize p = some bytes) : bytes = p.written.encode id number epoch := by
  cases p with
  | frame frame largest r => exact (encodeFrame_eq_some h).1
  | ack largest r => exact (some.inj h).symm
  | close rs text =>
    simp only [encodePacket, encodeClose] at h
    split at h
    · exact (some.inj h).symm
    · cases h
  | pathChallenge _ | pathResponse _ => exact (encodePath_eq_some h).1
  | flowControl _ | keyUpdate _ | keyUpdateAck _ => exact (some.inj (ite_none_left_eq_some.mp h).2).symm

theorem length_closeText (text : Bytes) : (closeText text).length < 96 := by
  rw [closeText, length_take]
  omega

/-- The length of a packet, where the first checks look at it. -/
theorem minimumSize_le_length_encode (p : Packet) (id number epoch : UInt64) (hp : p.isKeyUpdate = false) (ha : p.Allowed) :
    p.type.minimumSize ≤ (p.encode id number epoch).length := by
  rw [Packet.encode_eq]
  simp only [length_append, Packet.length_front, length_writeU64]
  cases p with
  | frame _ _ _ | close _ _ =>
    simp [Packet.type, Packet.body, packetNumberOffset, minimumSize]
    omega
  | ack largest r =>
    simp [Packet.type, Packet.body, packetNumberOffset, minimumSize, length_encodeAckRanges]
  | pathChallenge token | pathResponse token =>
    have ht : token.length = 8 := ha
    simp [Packet.type, Packet.body, packetNumberOffset, minimumSize, ht]
  | flowControl v => simp [Packet.type, Packet.body, packetNumberOffset, minimumSize]
  | keyUpdate | keyUpdateAck => cases hp

/-- A datagram that starts as a packet does passes the first checks, if it is long enough. -/
theorem readHeader_front {data more : Bytes} (hd : data = p.front id ++ more) (hl : p.type.minimumSize ≤ data.length) :
    readHeader data = some ⟨p.type, p.flag, id⟩ := by
  obtain ⟨front, hf⟩ := p.front_eq id
  rw [hd, hf, append_assoc] at hl ⊢
  exact readHeader_encodeHeader hl

/-- The reads of a packet find what was written, and leave nothing. -/
theorem readPacket_encodePacket (h : encodePacket id number epoch maximumSize p = some bytes) (ha : p.Allowed) :
    readPacket bytes p.flag p.type = some (p.reading id number epoch, []) := by
  have hbs := encodePacket_eq_some h
  cases p with
  | frame frame largest r =>
    obtain ⟨-, hs, hn⟩ := encodeFrame_eq_some h
    have hr := readFrame_framePacket frame id number epoch largest hn ha
    have hp : (ofNat frame.payload.length).toNat = frame.payload.length := toNat_ofNat_of_lt' (by simp only [size]; omega)
    rw [hbs]
    simp [readPacket, Packet.written, Packet.encode, Packet.type, Packet.flag, Packet.reading, hr, hp]
  | ack largest r =>
    have hr := readAck_encode id number epoch largest ha.1 ha.2
    rw [hbs]
    simp [readPacket, Packet.written, Packet.encode, Packet.type, Packet.reading, hr]
  | close rs text =>
    have hr := readClose_closePacket id number epoch (length_closeText text) ha
    rw [hbs]
    simp [readPacket, Packet.written, Packet.encode, Packet.type, Packet.reading, hr]
  | pathChallenge tok =>
    have hr := readPath_pathPacket .pathChallenge id number epoch ha
    rw [hbs]
    simp [readPacket, Packet.written, Packet.encode, Packet.type, Packet.reading, hr]
  | pathResponse tok =>
    have hr := readPath_pathPacket .pathResponse id number epoch ha
    rw [hbs]
    simp [readPacket, Packet.written, Packet.encode, Packet.type, Packet.reading, hr]
  | flowControl _ | keyUpdate _ | keyUpdateAck _ =>
    rw [hbs]
    simp [readPacket, Packet.written, Packet.encode, Packet.type, Packet.reading]

/-- A packet passes the first checks: as it is, unless it is of a key update, which is never sent so, and sealed. -/
theorem readHeader_encodePacket (h : encodePacket id number epoch maximumSize p = some bytes) (hal : p.Allowed) :
    (p.isKeyUpdate = false → readHeader bytes = some ⟨p.type, p.flag, id⟩) ∧
    ∀ box : Bytes, tagSize ≤ box.length →
      readHeader (bytes.take p.type.associatedDataLength ++ box) = some ⟨p.type, p.flag, id⟩ := by
  have hbs := encodePacket_eq_some h
  have hf := p.written.encode_eq id number epoch
  rw [← p.type_written, ← p.flag_written, ← p.isKeyUpdate_written]
  constructor
  · intro hp
    have hl := minimumSize_le_length_encode p.written id number epoch hp hal.written
    exact readHeader_front (hbs.trans hf) (hbs ▸ hl)
  · intro box hb
    have ha : (p.written.front id ++ (writeU64 number ++ writeU64 epoch)).length = p.written.type.associatedDataLength := by
      rw [length_append, Packet.length_front]
      cases p <;> rfl
    have ht : bytes.take p.written.type.associatedDataLength = p.written.front id ++ (writeU64 number ++ writeU64 epoch) := by
      rw [hbs, hf, ← append_assoc (writeU64 number), ← append_assoc (p.written.front id)]
      exact take_left' ha
    rw [ht]
    refine readHeader_front (append_assoc _ _ _) ?_
    rw [length_append, ha]
    simp only [tagSize] at hb
    cases p <;> simp [Packet.written, Packet.type, PacketType.associatedDataLength, minimumSize] <;> omega

end Packets

/-- Every packet that an encoder writes is read back.
1. The reads of `process_datagram` for its type find the id, the number, the epoch and all that the packet says, and leave no byte.
2. The checks before them pass, on the packet as it is and on the packet when it is sealed; packets of a key update are always sealed.
3. A range that is written as distances is given back by them; for one that is out of their reach two zeros are written. -/
theorem read_of_encodePacket (p : Packet) (hallowed : p.Allowed) (id number epoch : UInt64) (maximumSize : Nat) (bytes : Bytes)
    (h : encodePacket id number epoch maximumSize p = some bytes) :
    readPacket bytes p.flag p.type = some (p.reading id number epoch, []) ∧
    ((p.isKeyUpdate = false → readHeader bytes = some ⟨p.type, p.flag, id⟩) ∧
      ∀ box : Bytes, tagSize ≤ box.length →
        readHeader (bytes.take p.type.associatedDataLength ++ box) = some ⟨p.type, p.flag, id⟩) ∧
    (∀ largest range, InReach largest range → ofDelta largest (ackDelta largest range) = range) ∧
    (∀ largest range, ¬InReach largest range → ackDelta largest range = (0, 0)) :=
  ⟨readPacket_encodePacket h hallowed, readHeader_encodePacket h hallowed, fun _ _ => ofDelta_ackDelta,
    fun _ _ => ackDelta_of_not_inReach⟩

/-- A frame that acknowledges two ranges. -/
theorem read_of_encodePacket_frame :
    let p := Packet.frame (fragment 100 {} 3 5 0 [1, 2] 0) 9 [⟨8, 9⟩, ⟨2, 4⟩]
    ∃ bytes, encodePacket 7 10 0 1200 p = some bytes ∧ readPacket bytes p.flag p.type = some (p.reading 7 10 0, []) := by
  refine ⟨framePacket (fragment 100 {} 3 5 0 [1, 2] 0) 7 10 0 9 [⟨8, 9⟩, ⟨2, 4⟩], by decide, ?_⟩
  exact (read_of_encodePacket _ (by simp [Packet.Allowed]) 7 10 0 1200 _ (by decide)).1

/-- A frame that acknowledges a range far below the largest number is written, and the range is read as the largest number. -/
theorem read_of_encodePacket_far_range :
    let ranges : List AckRange := [⟨70000, 70000⟩, ⟨1, 1⟩]
    let p := Packet.frame (fragment 100 {} 3 5 0 [1, 2] 0) 70000 ranges
    ((encodePacket 7 10 0 1200 p).bind readFrame).map (fun body => body.acknowledgedRanges.map (ofDelta 70000)) =
      some [⟨70000, 70000⟩, ⟨70000, 70000⟩] ∧
    ((encodePacket 7 10 0 1200 p).bind readFrame).map (fun body => body.acknowledgedRanges.map (ofDelta 70000)) ≠
      some ranges := by
  decide

end Libft.Networking
