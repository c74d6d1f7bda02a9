import Libft.Networking.Connection

/-!
# Acknowledgements

`record_packet`, which keeps the packet numbers that arrived as at most four ranges with the highest first, and `apply_ack`, which
takes the packets an acknowledgement covers out of the sent list.
-/

namespace Libft.Networking

/-! ## Recording a packet number -/

/-- The scan of `record_packet` over the ranges, with those already passed: a number that is in a range is a duplicate, and one that
is next to a range extends it and may close the gap to its neighbour. `none` when no range has to do with the number. -/
def recordScan (packetNumber : UInt64) (passed : List AckRange) : List AckRange → Option (Bool × List AckRange)
  | [] => none
  | range :: rest =>
    if range.start ≤ packetNumber ∧ packetNumber ≤ range.end_ then some (false, passed ++ range :: rest)
    else if packetNumber ≠ -1 ∧ packetNumber = range.end_ + 1 then
      match passed.getLast? with
      | some above =>
        if above.start = packetNumber + 1 then some (true, passed.dropLast ++ ⟨range.start, above.end_⟩ :: rest)
        else some (true, passed ++ ⟨range.start, packetNumber⟩ :: rest)
      | none => some (true, ⟨range.start, packetNumber⟩ :: rest)
    else if packetNumber ≠ 0 ∧ packetNumber = range.start - 1 then
      match rest with
      | below :: rest' =>
        if below.end_ + 1 = packetNumber then some (true, passed ++ ⟨below.start, range.end_⟩ :: rest')
        else some (true, passed ++ ⟨packetNumber, range.end_⟩ :: rest)
      | [] => some (true, passed ++ [⟨packetNumber, range.end_⟩])
    else recordScan packetNumber (passed ++ [range]) rest

/-- The insertion of `record_packet`: before the first range that does not start above the number; the lowest range goes when there
would be five. -/
def insertRange (packetNumber : UInt64) (ranges : List AckRange) : List AckRange :=
  (ranges.takeWhile (fun range => decide (packetNumber < range.start)) ++ ⟨packetNumber, packetNumber⟩ ::
    ranges.dropWhile (fun range => decide (packetNumber < range.start))).take ackRangeLimit

/-- `record_packet`: whether the number is new, and the ranges with it. -/
def recordPacket (packetNumber : UInt64) (ranges : List AckRange) : Bool × List AckRange :=
  (recordScan packetNumber [] ranges).getD (true, insertRange packetNumber ranges)

/-- What `process_datagram` does with the number of a frame: it is recorded, and a duplicate asks for another acknowledgement. -/
def ConnectionRecord.recordReceived (c : ConnectionRecord) (packetNumber : UInt64) : ConnectionRecord :=
  match recordPacket packetNumber c.receivedRanges with
  | (false, ranges) =>
    { c with
      receivedRanges := ranges
      statistics := { c.statistics with duplicatePackets := c.statistics.duplicatePackets + 1 }
      lastAcknowledgedSent := if c.largestReceived ≠ 0 then 0 else c.lastAcknowledgedSent }
  | (true, ranges) =>
    { c with
      receivedRanges := ranges
      largestReceived := if c.largestReceived < packetNumber then packetNumber else c.largestReceived }

/-! ## Applying an acknowledgement -/

/-- The test of `apply_ack`: the largest number, or one whose distance lies between the start and the end of a range. -/
def isAcknowledged (largestAcknowledged : UInt64) (ranges : List (UInt16 × UInt16)) (packetNumber : UInt64) : Bool :=
  if packetNumber = largestAcknowledged then true
  else if packetNumber < largestAcknowledged then
    let difference := largestAcknowledged - packetNumber
    ranges.any fun range => decide (range.1.toUInt64 ≤ difference) && decide (difference ≤ range.2.toUInt64)
  else false

/-- The round trip time of a packet that was sent once. -/
def measureRtt (c : ConnectionRecord) (measured : UInt64) : ConnectionRecord :=
  { c with
    latestRtt := measured
    minimumRtt := if c.minimumRtt = 0 ∨ measured < c.minimumRtt then measured else c.minimumRtt
    rttVariance :=
      if c.smoothedRtt = 0 then measured / 2
      else (c.rttVariance * 3 + (if measured < c.smoothedRtt then c.smoothedRtt - measured else measured - c.smoothedRtt)) / 4
    smoothedRtt := if c.smoothedRtt = 0 then measured else (c.smoothedRtt * 7 + measured) / 8
    previousRtt := measured
    statistics := { c.statistics with
      jitterMilliseconds :=
        if c.previousRtt = 0 then c.statistics.jitterMilliseconds
        else if measured < c.previousRtt then c.previousRtt - measured else measured - c.previousRtt } }

/-- The congestion window after an acknowledged packet: it grows by the packet in slow start and by its share after. -/
def growWindow (c : ConnectionRecord) (wireSize : Nat) : Nat :=
  let window :=
    if c.congestionWindow < c.slowStartThreshold then c.congestionWindow + wireSize
    else if c.congestionWindow ≠ 0 then
      c.congestionWindow + (if wireSize * wireSize < c.congestionWindow then 1 else wireSize * wireSize / c.congestionWindow)
    else c.congestionWindow
  min window 48000

/-- Take bytes out of the count of a lane. -/
def Statistics.dequeueLane (s : Statistics) (lane : Lane) (size : Nat) : Statistics :=
  { s with laneQueuedBytes := Function.update s.laneQueuedBytes lane (s.laneQueuedBytes lane - size) }

/-- The counters after the acknowledgement of one packet. -/
def acknowledgePacket (now : UInt64) (c : ConnectionRecord) (p : SentPacket) : ConnectionRecord :=
  let size := p.frame.payload.length
  let c := if p.retransmitted = false then measureRtt c (now - p.sentAt) else c
  { c with
    bytesInFlight := c.bytesInFlight - p.wireSize
    congestionWindow := growWindow c p.wireSize
    reliableFlowReserved :=
      if isReliable p.frame.delivery = true then c.reliableFlowReserved - size else c.reliableFlowReserved
    statistics := { c.statistics with
      packetsAcknowledged := c.statistics.packetsAcknowledged + 1
      queueBytes := c.statistics.queueBytes - size }.dequeueLane (laneIndex p.frame.lane) size }

/-- `apply_ack`: every packet that is acknowledged is counted and leaves the sent list. -/
def applyAck (now : UInt64) (c : ConnectionRecord) (largestAcknowledged : UInt64) (ranges : List (UInt16 × UInt16)) :
    ConnectionRecord :=
  let acknowledged := fun p : SentPacket => isAcknowledged largestAcknowledged ranges p.packetNumber
  { (c.sent.filter acknowledged).foldl (acknowledgePacket now) c with sent := c.sent.filter fun p => !acknowledged p }

end Libft.Networking
