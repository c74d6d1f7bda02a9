import Libft.Networking.Handshake
import Libft.Networking.Wire

/-!
# A connection and what it gives out

`connection_record`, and the transport around it as far as one connection sees it: the configuration and the cryptography (`Ctx`),
the clock and the outcome of every send and allocation of one call (`Env`), and what the calls have put on the wire, on the queue of
received messages and on the queue of events (`Node`). Every function of the transport takes a node to a node.
-/

namespace Libft.Networking

open Bytes

/-- What does not change: the cryptography and the configuration. -/
structure Ctx where
  crypto : CryptoBackend
  cfg : TransportConfig

/-- The places a packet is sent from. -/
inductive SendPlace where
  | hello | finished | retry | keyUpdate | keyUpdateAck | close | path | flowControl | retransmission | ack | frame
  deriving DecidableEq, Repr

/-- The places where the source checks whether the system did what it was asked to: a datagram that was sent, or memory for a
sealed packet, an opened packet, a frame, a sent packet, a frame that goes back to its lane, the state of a channel, a message for the
application, a message that waits for its turn, a reassembly record or a connection, or random bytes. -/
inductive Site where
  | send (place : SendPlace)
  | seal_ (place : SendPlace)
  | open_
  | outgoingFrame (index : Nat)
  | sentPacket
  | requeue
  | channelState
  | message
  | received
  | released (index : Nat)
  | buffered
  | reassembly
  | random
  | connection
  deriving DecidableEq, Repr

/-- What a call finds: the time, which of its requests to the system succeed, and the random bytes it is given. -/
structure Env where
  now : UInt64
  ok : Site → Bool := fun _ => true
  random : Bytes := List.replicate 8 0

/-- `connection_record`. -/
structure ConnectionRecord where
  remote : Endpoint := ⟨[]⟩
  id : UInt64 := 0
  state : ConnectionState := .idle
  nextPacket : UInt64 := 1
  nextMessage : UInt64 := 1
  largestReceived : UInt64 := 0
  receivedRanges : List AckRange := []
  lastAcknowledgedSent : UInt64 := 0
  lastReceive : UInt64 := 0
  lastSend : UInt64 := 0
  smoothedRtt : UInt64 := 0
  latestRtt : UInt64 := 0
  minimumRtt : UInt64 := 0
  rttVariance : UInt64 := 0
  previousRtt : UInt64 := 0
  bytesInFlight : Nat := 0
  congestionWindow : Nat := 12000
  slowStartThreshold : Nat := 48000
  pacingNextSend : UInt64 := 0
  maximumQueuedBytes : UInt32 := 0
  lanes : Lane → LaneState := fun lane => { priorityWeight := [16, 8, 4, 1].getD lane 1 }
  pendingLanes : Lane → List OutgoingFrame := fun _ => []
  sent : List SentPacket := []
  retransmissionCursor : Nat := 0
  reassembly : List ReassemblyRecord := []
  channels : List ChannelState := []
  orderedPending : List ReceivedMessage := []
  statistics : Statistics := {}
  secureEnabled : Bool := false
  secureChannel : SecureChannel := {}
  handshake : Handshake := {}
  handshakeEnabled : Bool := false
  incomingPending : Bool := false
  finishedSent : Bool := false
  handshakeAttempts : Nat := 0
  keyUpdatePending : Bool := false
  keyUpdateEpoch : UInt64 := 0
  keyUpdateSentAt : UInt64 := 0
  previousReceiveKeyExpiry : UInt64 := 0
  drainingStarted : UInt64 := 0
  drainingReason : CloseReason := CloseReason.application
  drainingDebugText : Bytes := []
  pendingPath : Endpoint := ⟨[]⟩
  pendingPathToken : Bytes := List.replicate 8 0
  pathChallengeSent : UInt64 := 0
  pathValidationPending : Bool := false
  remoteFlowCredit : Nat := uint64Max
  remoteFlowControlReceived : Bool := false
  reliableFlowReserved : Nat := 0
  receiveFlowCredit : Nat := 0
  advertisedFlowCredit : Nat := 0

/-- A connection, and all that it has put on the wire, on the queue of received messages and on the queue of events. -/
structure Node where
  connection : ConnectionRecord
  wire : List (Endpoint × Bytes) := []
  received : List ReceivedMessage := []
  events : List Event := []

namespace Node

/-- Change the connection. -/
def modify (n : Node) (f : ConnectionRecord → ConnectionRecord) : Node := { n with connection := f n.connection }

/-- Put a datagram on the wire. -/
def emit (n : Node) (destination : Endpoint) (packet : Bytes) : Node := { n with wire := n.wire ++ [(destination, packet)] }

/-- Put a message on the queue of received messages. -/
def deliver (n : Node) (message : ReceivedMessage) : Node := { n with received := n.received ++ [message] }

/-- `emit_event`, for the connection of the node. -/
def emitEvent (n : Node) (type : EventType) (reason : EventReason) (debugText : String := "") : Node :=
  { n with events := n.events ++ [⟨type, n.connection.id, reason, debugText⟩] }

@[simp] theorem modify_connection (n : Node) (f : ConnectionRecord → ConnectionRecord) :
    (n.modify f).connection = f n.connection := rfl
@[simp] theorem modify_wire (n : Node) (f : ConnectionRecord → ConnectionRecord) : (n.modify f).wire = n.wire := rfl
@[simp] theorem modify_received (n : Node) (f : ConnectionRecord → ConnectionRecord) : (n.modify f).received = n.received := rfl
@[simp] theorem emit_connection (n : Node) (d : Endpoint) (p : Bytes) : (n.emit d p).connection = n.connection := rfl
@[simp] theorem deliver_connection (n : Node) (m : ReceivedMessage) : (n.deliver m).connection = n.connection := rfl
@[simp] theorem deliver_received (n : Node) (m : ReceivedMessage) : (n.deliver m).received = n.received ++ [m] := rfl
@[simp] theorem emitEvent_connection (n : Node) (t : EventType) (r : EventReason) (s : String) :
    (n.emitEvent t r s).connection = n.connection := rfl

end Node

/-- A part of a call: the node it leaves, and the result code when the call returns there; `none` goes on. -/
abbrev Outcome : Type := Node × Option FtError

/-- Go on with the rest of the call, unless it has returned. -/
def Outcome.next (o : Outcome) (rest : Node → Outcome) : Outcome :=
  match o.2 with
  | none => rest o.1
  | some _ => o

/-- The call goes on. -/
def goOn (n : Node) : Outcome := (n, none)

/-- The call returns. -/
def return_ (n : Node) (result : FtError) : Outcome := (n, some result)

/-- `protect_packet`: what stands behind the epoch is sealed, under the packet number that stands in front of it. -/
def protectPacket (B : CryptoBackend) (ch : SecureChannel) (storage : Bool) (packet : Bytes) : Option (Bytes × SecureChannel) :=
  if packet.length < 20 then none
  else do
    let type := ((packet.drop 2).head?.bind PacketType.ofByte?).getD .frame
    let (packetNumber, _) ← readU64 (packet.drop type.packetNumberOffset)
    let length := type.associatedDataLength
    let (box, ch) ← ch.seal_ B storage packetNumber (packet.take length) (packet.drop length)
    return (packet.take length ++ box, ch)

end Libft.Networking
