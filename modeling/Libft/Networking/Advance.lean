import Libft.Networking.Send

/-!
# One advance of a connection

`advance_connection`, stage after stage as the source runs it: the previous receive key expires, a draining connection with nothing
left closes, a handshake is retried, a key update or a path challenge is repeated, credit is advertised, an idle connection is aborted,
reassembly records expire, one packet is retransmitted, an acknowledgement is sent when there is no frame to carry it, and one frame is
taken from the lane whose turn it is. Each stage may end the call.
-/

namespace Libft.Networking

open Function UInt64

/-- A timer that was started at a time and has run for its duration. -/
def elapsed (now started duration : UInt64) : Bool := decide (started ≤ now) && decide (duration ≤ now - started)

/-- The result code of a sender that is part of a call: only a failure ends the call. -/
def orReturn (r : Node × FtError) : Outcome := if r.2 = .success then goOn r.1 else return_ r.1 r.2

/-! ## Timers -/

/-- The previous receive key is forgotten when its time is over. -/
def expirePreviousKey (e : Env) (n : Node) : Outcome :=
  if n.connection.previousReceiveKeyExpiry ≠ 0 ∧ n.connection.previousReceiveKeyExpiry ≤ e.now then
    match n.connection.secureChannel.clearPreviousReceiveKey with
    | .error _ => return_ n .internal
    | .ok ch => goOn (n.modify fun c => { c with secureChannel := ch, previousReceiveKeyExpiry := 0 })
  else goOn n

/-- A draining connection with nothing left to send closes. -/
def advanceDraining (Γ : Ctx) (e : Env) (n : Node) : Outcome :=
  if n.connection.state = .draining ∧ n.connection.sent.isEmpty = true ∧ n.connection.lanesEmpty = true then
    let r := finishDraining Γ e n n.connection.drainingReason
    return_ r.1 r.2
  else goOn n

/-- The time between two tries of a handshake: it doubles three times. -/
def retryTimeout (cfg : TransportConfig) (attempts : Nat) : UInt64 :=
  (if cfg.retransmissionTimeout = 0 then 1 else cfg.retransmissionTimeout) <<< ofNat (min (attempts - 1) 3)

/-- One more try: the hello, and behind it the finished message of a server. -/
def retryHandshake (Γ : Ctx) (e : Env) (n : Node) : Node × FtError :=
  match sendHandshakeHello Γ e n, n.connection.handshake.role with
  | (n, .success), .server => sendHandshakeFinished Γ e n
  | r, _ => r

/-- A handshake that has not ended is tried again, six times at most. -/
def advanceHandshake (Γ : Ctx) (e : Env) (n : Node) : Outcome :=
  let c := n.connection
  if c.state ≠ .handshaking then goOn n
  else if c.incomingPending = true ∧ c.handshake.role = .server then return_ n .success
  else if e.now - c.lastSend < retryTimeout Γ.cfg c.handshakeAttempts then return_ n .success
  else if 6 ≤ c.handshakeAttempts then return_ (n.modify fun c => { c with state := .failed }) .timeout
  else
    let r := retryHandshake Γ e n
    if r.2 = .success then return_ (r.1.modify fun c => { c with handshakeAttempts := c.handshakeAttempts + 1 }) .success
    else return_ (r.1.modify fun c => { c with state := .failed }) r.2

/-- A key update that was not answered is repeated. -/
def repeatKeyUpdate (Γ : Ctx) (e : Env) (n : Node) : Outcome :=
  let c := n.connection
  if c.keyUpdatePending = true ∧ elapsed e.now c.keyUpdateSentAt Γ.cfg.retransmissionTimeout = true then
    (orReturn (sendKeyUpdateRequest Γ e n c.keyUpdateEpoch)).next fun n =>
      return_ (n.modify fun c => { c with keyUpdateSentAt := e.now }) .success
  else goOn n

/-- A path challenge that was not answered is repeated. -/
def repeatPathChallenge (Γ : Ctx) (e : Env) (n : Node) : Outcome :=
  let c := n.connection
  if c.pathValidationPending = true ∧ elapsed e.now c.pathChallengeSent Γ.cfg.retransmissionTimeout = true then
    (orReturn (sendPathPacket Γ e n .pathChallenge c.pendingPath c.pendingPathToken)).next fun n =>
      goOn (n.modify fun c => { c with pathChallengeSent := e.now })
  else goOn n

/-- Credit that the peer has not been told of is advertised. -/
def advertiseCredit (Γ : Ctx) (e : Env) (n : Node) : Outcome :=
  if n.connection.advertisedFlowCredit < n.connection.receiveFlowCredit then
    orReturn (sendFlowControl Γ e n n.connection.receiveFlowCredit)
  else goOn n

/-- The text of a close for idleness. -/
def idleText : Bytes := [105, 100, 108, 101, 32, 116, 105, 109, 101, 111, 117, 116]

/-- A connection that neither sent nor received for too long. -/
def isIdle (cfg : TransportConfig) (now : UInt64) (c : ConnectionRecord) : Bool :=
  decide (cfg.idleTimeout ≠ 0) && elapsed now (if c.lastReceive < c.lastSend then c.lastSend else c.lastReceive) cfg.idleTimeout

/-- An idle connection is aborted. -/
def abortIdle (Γ : Ctx) (e : Env) (n : Node) : Outcome :=
  if isIdle Γ.cfg e.now n.connection = true then
    return_ (closeConnection Γ e n CloseReason.timeout idleText true).1 .timeout
  else goOn n

/-! ## Reassembly -/

/-- Credit for bytes that are no longer held, up to the largest word. -/
def addCredit (credit size : Nat) : Nat := if credit ≤ uint64Max - size then credit + size else uint64Max

/-- The counters of a connection that gave up a record. -/
def dropRecord (c : ConnectionRecord) (record : ReassemblyRecord) : ConnectionRecord :=
  { c with
    receiveFlowCredit := addCredit c.receiveFlowCredit record.totalSize.toNat
    statistics := { c.statistics with
      fragmentsDropped := c.statistics.fragmentsDropped + 1
      reassemblyBytes := c.statistics.reassemblyBytes - record.totalSize.toNat
      reassemblyMessages := c.statistics.reassemblyMessages - 1 } }

/-- Records whose time is over are given up, and their bytes are credited. -/
def expireReassembly (e : Env) (n : Node) : Node :=
  let expired := fun record : ReassemblyRecord => decide (record.expiresAt ≤ e.now)
  let n' := (n.connection.reassembly.filter expired).foldl (fun n record =>
    (n.emitEvent .deliveryFailed (.code .timeout) "reassembly expired").modify fun c => dropRecord c record) n
  n'.modify fun c => { c with reassembly := n.connection.reassembly.filter fun record => !expired record }

/-! ## Retransmission -/

/-- The retransmission timeout of a sent packet has run. -/
def isDue (cfg : TransportConfig) (now : UInt64) (p : SentPacket) : Bool := decide (cfg.retransmissionTimeout ≤ now - p.sentAt)

/-- A frame whose message has an expiry that has passed. -/
def isExpired (now : UInt64) (frame : OutgoingFrame) : Bool := decide (frame.expiry ≠ 0) && decide (frame.expiry ≤ now)

/-- The flow reservation without a frame, if it was reliable. -/
def releaseReserved (c : ConnectionRecord) (frame : OutgoingFrame) : Nat :=
  if isReliable frame.delivery = true then c.reliableFlowReserved - frame.payload.length else c.reliableFlowReserved

/-- A sent packet whose message expired leaves the list. The bytes in flight and the byte count of its lane stay as they were. -/
def expireSent (n : Node) (index : Nat) (p : SentPacket) : Node :=
  (n.emitEvent .deliveryFailed (.code .timeout) "message expired").modify fun c => { c with
    sent := c.sent.eraseIdx index
    retransmissionCursor := if c.sent.length - 1 ≤ c.retransmissionCursor then 0 else c.retransmissionCursor
    reliableFlowReserved := releaseReserved c p.frame
    statistics := { c.statistics with
      messagesExpired := c.statistics.messagesExpired + 1
      queueBytes := c.statistics.queueBytes - p.frame.payload.length } }

/-- A lost packet halves the congestion window, down to two datagrams. -/
def shrinkWindow (cfg : TransportConfig) (c : ConnectionRecord) : ConnectionRecord :=
  let window := max (c.congestionWindow / 2) (cfg.maximumDatagramSize.toNat * 2)
  { c with slowStartThreshold := window, congestionWindow := window }

/-- The counters and the list of a connection that sent a packet again, under the next number. -/
def countRetransmission (now : UInt64) (index : Nat) (p : SentPacket) (size : Nat) (c : ConnectionRecord) : ConnectionRecord :=
  { c with
    sent := c.sent.set index
      { p with sentAt := now, packetNumber := c.nextPacket, wireSize := size, retransmitted := true }
    bytesInFlight := c.bytesInFlight + (size - p.wireSize) - (p.wireSize - size)
    retransmissionCursor := if c.sent.length ≤ index + 1 then 0 else index + 1
    nextPacket := c.nextPacket + 1
    statistics := { c.statistics with
      packetsLost := c.statistics.packetsLost + 1
      packetsRetransmitted := c.statistics.packetsRetransmitted + 1
      packetsSent := c.statistics.packetsSent + 1
      bytesSent := c.statistics.bytesSent + size } }

/-- A sent packet is sent again. -/
def retransmit (Γ : Ctx) (e : Env) (n : Node) (index : Nat) (p : SentPacket) : Outcome :=
  let n := n.modify (shrinkWindow Γ.cfg)
  let c := n.connection
  match encodeFrame p.frame c.id c.nextPacket c.sendEpoch c.largestReceived c.receivedRanges
      Γ.cfg.maximumDatagramSize.toNat with
  | none => return_ n .internal
  | some packet =>
    match protectFor Γ e .retransmission c.secureEnabled n packet with
    | none => return_ n .internal
    | some (packet, n) =>
      if e.ok (.send .retransmission) = false then return_ n .socketSendFailed
      else goOn ((n.emit c.remote packet).modify (countRetransmission e.now index p packet.length))

/-- The scan for a packet to send again, from the cursor on: packets that are not due are passed, expired ones leave the list, and the
first other is sent. The cursor may point behind the list, from which acknowledged packets were taken; the source then reads through
the null pointer that the vector returns. -/
def retransmitScan (Γ : Ctx) (e : Env) : Nat → Nat → Node → Outcome
  | 0, _, n => goOn n
  | fuel + 1, index, n =>
    let sent := n.connection.sent
    if sent.length ≤ index then goOn n
    else
      let candidate := n.connection.retransmissionCursor + index
      let candidate := if sent.length ≤ candidate then candidate - sent.length else candidate
      match sent[candidate]? with
      | none => return_ n .nullPointer
      | some p =>
        if isDue Γ.cfg e.now p = false then retransmitScan Γ e fuel (index + 1) n
        else if isExpired e.now p.frame = true then retransmitScan Γ e fuel index (expireSent n candidate p)
        else retransmit Γ e n candidate p

/-- The retransmission stage. -/
def retransmitOne (Γ : Ctx) (e : Env) (n : Node) : Outcome := retransmitScan Γ e n.connection.sent.length 0 n

/-! ## Acknowledgement -/

/-- An acknowledgement of its own, when there is something new to acknowledge and no frame to carry it. -/
def sendAck (Γ : Ctx) (e : Env) (n : Node) : Outcome :=
  let c := n.connection
  if c.lanesEmpty = true ∧ c.largestReceived ≠ 0 ∧ c.lastAcknowledgedSent ≠ c.largestReceived then
    match protectFor Γ e .ack c.secureEnabled n
        (encodeAck c.id c.nextPacket c.sendEpoch c.largestReceived c.receivedRanges) with
    | none => return_ n .internal
    | some (packet, n) =>
      if e.ok (.send .ack) = false then return_ n .socketSendFailed
      else
        goOn ((n.emit c.remote packet).modify fun c => { c with
          lastSend := e.now
          nextPacket := c.nextPacket + 1
          lastAcknowledgedSent := c.largestReceived
          statistics := { c.statistics with
            packetsSent := c.statistics.packetsSent + 1
            bytesSent := c.statistics.bytesSent + packet.length } })
  else goOn n

/-! ## The lane whose turn it is -/

/-- A lane below its reserved bandwidth in the current second. -/
def LaneState.hasReserve (lane : LaneState) : Bool :=
  decide (lane.reservedBandwidthBytesPerSecond ≠ 0) && decide (lane.sentBytesWindow < lane.reservedBandwidthBytesPerSecond)

/-- The lanes with the windows of lanes one to three restarted when their second is over. -/
def refreshWindows (now : UInt64) (lanes : Lane → LaneState) : Lane → LaneState := fun lane =>
  if lane ≠ 0 ∧ ((lanes lane).windowStarted = 0 ∨ elapsed now (lanes lane).windowStarted 1000 = true) then
    { lanes lane with windowStarted := now, sentBytesWindow := 0 }
  else lanes lane

/-- One lane of the selection: an eligible lane earns its weight, and is selected when it has more than the one selected so far. -/
def selectStep (eligible : Lane → Bool) (s : (Lane → LaneState) × Option (Lane × UInt64)) (lane : Lane) :
    (Lane → LaneState) × Option (Lane × UInt64) :=
  if eligible lane = false then s
  else
    let deficit := (s.1 lane).deficit + (s.1 lane).priorityWeight.toUInt64
    let lanes := update s.1 lane { s.1 lane with deficit := deficit }
    match s.2 with
    | none => (lanes, some (lane, deficit))
    | some (_, best) => if best < deficit then (lanes, some (lane, deficit)) else (lanes, s.2)

/-- `select_lane`: lane zero before all; else the lane with the largest deficit, among those below their reservation if there is one.
The source's value four, for no lane, is `none`. -/
def selectLane (now : UInt64) (c : ConnectionRecord) : Option Lane × (Lane → LaneState) :=
  if (c.pendingLanes 0).isEmpty = false then (some 0, c.lanes)
  else
    let lanes := refreshWindows now c.lanes
    let waiting := fun lane : Lane => !(c.pendingLanes lane).isEmpty
    let reserved := [1, 2, 3].any fun lane => waiting lane && (lanes lane).hasReserve
    let eligible := fun lane => waiting lane && (!reserved || (lanes lane).hasReserve)
    match [1, 2, 3].foldl (selectStep eligible) (lanes, none) with
    | (lanes, none) => (none, lanes)
    | (lanes, some (lane, _)) =>
      (some lane, if (lanes lane).deficit = 0 then lanes
        else update lanes lane { lanes lane with deficit := (lanes lane).deficit - 1 })

/-! ## One frame -/

/-- A frame goes back to the front of its lane. It is lost when there is no memory for it. -/
def requeue (e : Env) (n : Node) (lane : Lane) (frame : OutgoingFrame) : Node :=
  if e.ok .requeue = true then
    n.modify fun c => { c with pendingLanes := update c.pendingLanes lane (frame :: c.pendingLanes lane) }
  else n

/-- A frame that is taken from its lane after its message expired. Neither the queue nor the lane counts its bytes out. -/
def expirePending (n : Node) (frame : OutgoingFrame) : Node :=
  n.modify fun c => { c with
    reliableFlowReserved := releaseReserved c frame
    statistics := { c.statistics with messagesExpired := c.statistics.messagesExpired + 1 } }

/-- Whether pacing or the congestion window holds a packet of that size back. -/
def heldBack (now : UInt64) (c : ConnectionRecord) (size : Nat) : Bool :=
  decide (now < c.pacingNextSend) || decide (c.congestionWindow < c.bytesInFlight) ||
    decide (c.congestionWindow - c.bytesInFlight < size)

/-- When the next packet may leave. -/
def nextPacing (now : UInt64) (c : ConnectionRecord) (size : Nat) : UInt64 :=
  if c.smoothedRtt ≠ 0 ∧ c.congestionWindow ≠ 0 then
    let interval := ofNat size * c.smoothedRtt / ofNat c.congestionWindow
    now + (if interval = 0 then 1 else interval)
  else c.pacingNextSend

/-- The counters and lists of a connection that sent a frame: a reliable one waits in the sent list for its acknowledgement, an
unreliable one is done. -/
def countFrame (now : UInt64) (lane : Lane) (frame : OutgoingFrame) (size : Nat) (c : ConnectionRecord) : ConnectionRecord :=
  let reliable := isReliable frame.delivery
  let c := { c with
    lastSend := now
    nextPacket := c.nextPacket + 1
    sent := if reliable = true then c.sent ++ [⟨c.nextPacket, now, size, false, frame⟩] else c.sent
    bytesInFlight := if reliable = true then c.bytesInFlight + size else c.bytesInFlight
    pacingNextSend := nextPacing now c size
    lanes := update c.lanes lane { c.lanes lane with sentBytesWindow := (c.lanes lane).sentBytesWindow + size }
    statistics := { c.statistics with
      packetsSent := c.statistics.packetsSent + 1
      bytesSent := c.statistics.bytesSent + size } }
  if reliable = true then c
  else { c with
    statistics := { c.statistics with
      queueBytes := c.statistics.queueBytes - frame.payload.length }.dequeueLane lane frame.payload.length }

/-- The frame stage, with the frame taken from its lane. -/
def sendFrame (Γ : Ctx) (e : Env) (n : Node) (lane : Lane) (frame : OutgoingFrame) : Node × FtError :=
  let c := n.connection
  if isExpired e.now frame = true then (expirePending n frame, .success)
  else
    match encodeFrame frame c.id c.nextPacket c.sendEpoch c.largestReceived c.receivedRanges
        Γ.cfg.maximumDatagramSize.toNat with
    | none => (requeue e n lane frame, .internal)
    | some packet =>
      match protectFor Γ e .frame c.secureEnabled n packet with
      | none => (requeue e n lane frame, .internal)
      | some (packet, n) =>
        if heldBack e.now c packet.length = true then (requeue e n lane frame, .success)
        else if isReliable frame.delivery = true ∧ e.ok .sentPacket = false then (requeue e n lane frame, .noMemory)
        else if e.ok (.send .frame) = false then (requeue e n lane frame, .socketSendFailed)
        else ((n.emit c.remote packet).modify (countFrame e.now lane frame packet.length), .success)

/-- The frame stage. -/
def sendPending (Γ : Ctx) (e : Env) (n : Node) : Outcome :=
  let (selected, lanes) := selectLane e.now n.connection
  let n := n.modify fun c => { c with lanes := lanes }
  match selected with
  | none => return_ n .success
  | some lane =>
    match n.connection.pendingLanes lane with
    | [] => return_ n .internal
    | frame :: rest =>
      let r := sendFrame Γ e
        (n.modify fun c => { c with pendingLanes := update c.pendingLanes lane rest }) lane frame
      return_ r.1 r.2

/-! ## The call -/

/-- The stages before the reassembly records are looked at. -/
def advanceTimers (Γ : Ctx) (e : Env) (n : Node) : Outcome :=
  (expirePreviousKey e n).next fun n =>
  (advanceDraining Γ e n).next fun n =>
  (advanceHandshake Γ e n).next fun n =>
  (repeatKeyUpdate Γ e n).next fun n =>
  (repeatPathChallenge Γ e n).next fun n =>
  (advertiseCredit Γ e n).next fun n =>
  abortIdle Γ e n

/-- The stages before the frame stage. -/
def beforeFrame (Γ : Ctx) (e : Env) (n : Node) : Outcome :=
  (advanceTimers Γ e n).next fun n =>
  (retransmitOne Γ e (expireReassembly e n)).next fun n =>
  sendAck Γ e n

/-- `advance_connection`. -/
def advanceConnection (Γ : Ctx) (e : Env) (n : Node) : Outcome := (beforeFrame Γ e n).next (sendPending Γ e)

/-- `poll`, once every datagram was processed: connections that are open or opening advance. -/
def pollConnection (Γ : Ctx) (e : Env) (n : Node) : Node :=
  if n.connection.state = .connected ∨ n.connection.state = .handshaking ∨ n.connection.state = .draining then
    (advanceConnection Γ e n).1
  else n

end Libft.Networking
