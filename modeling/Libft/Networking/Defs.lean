import Libft.Lib.Bytes
import Mathlib.Logic.Function.Basic

/-!
# The data model of the message transport

The records of `networking_message_transport.cpp` and `message_transport.hpp` that a connection is made of. Identifiers,
packet numbers, epochs and times are the 64-bit words of the source, and wrap as they do; byte counts and statistics are
natural numbers. Pointers, the mutex, the worker thread and its command queue are left out: every operation is the one the
lock holder runs. A container is the list of its elements.
-/

namespace Libft.Networking

/-- The result codes the transport returns. `nullPointer` is not one of them: it marks the one place where the source reads
through a null pointer. -/
inductive FtError where
  | success | noMemory | invalidArgument | invalidState | invalidHandle | invalidPointer | notInitialised | alreadyInitialised
  | permissionDenied | full | outOfRange | internal | timeout | configuration | socketSendFailed | unsupportedType | notFound
  | nullPointer
  deriving DecidableEq, Repr

/-- `networking_message_delivery`. -/
inductive Delivery where
  | reliableOrdered | unreliable | unreliableSequenced
  deriving DecidableEq, Repr

/-- The value of a delivery mode on the wire. -/
def Delivery.toByte : Delivery → UInt8
  | .reliableOrdered => 0
  | .unreliable => 1
  | .unreliableSequenced => 2

/-- The delivery mode of a wire value, if it is one. -/
def Delivery.ofByte? (value : UInt8) : Option Delivery :=
  if value = 0 then some .reliableOrdered
  else if value = 1 then some .unreliable
  else if value = 2 then some .unreliableSequenced
  else none

@[simp] theorem Delivery.ofByte?_toByte (d : Delivery) : Delivery.ofByte? d.toByte = some d := by
  cases d <;> rfl

/-- `is_reliable`. -/
def isReliable (delivery : Delivery) : Bool := decide (delivery = .reliableOrdered)

/-- `networking_message_connection_state`. -/
inductive ConnectionState where
  | idle | resolving | probing | handshaking | connected | draining | closed | failed
  deriving DecidableEq, Repr

/-- `networking_message_event_type`. -/
inductive EventType where
  | connecting | connectionRequested | connected | pathChanged | messageAvailable | deliveryFailed | peerClosing | closed
  | failed
  deriving DecidableEq, Repr

/-- `networking_message_close_reason`: a 16-bit word, of which 0 to 6 are named. -/
abbrev CloseReason : Type := UInt16

def CloseReason.application : CloseReason := 1
def CloseReason.timeout : CloseReason := 4
def CloseReason.internalError : CloseReason := 6

/-- The reason of an event: a result code, or the reason a connection was closed with. -/
inductive EventReason where
  | code (error : FtError)
  | close (reason : CloseReason)
  deriving DecidableEq, Repr

/-- `networking_message_event`. -/
structure Event where
  type : EventType
  connectionId : UInt64
  reason : EventReason
  debugText : String := ""
  deriving DecidableEq, Repr

/-- `networking_message_endpoint`: the first `length` bytes of the socket address, which are all that is ever compared. -/
structure Endpoint where
  address : Bytes
  deriving DecidableEq, Repr

/-- The four priority lanes. -/
abbrev Lane : Type := Fin 4

instance instNeZeroLanes : NeZero 4 := ⟨by decide⟩

/-- The lane a wire or option value selects: the value modulo four. -/
def laneIndex (lane : UInt8) : Lane := Fin.ofNat 4 lane.toNat

/-- `networking_message_send_options`. -/
structure SendOptions where
  delivery : Delivery := .reliableOrdered
  lane : UInt8 := 2
  channel : UInt32 := 0
  expiryMilliseconds : UInt64 := 0
  deriving DecidableEq, Repr

/-- `NETWORKING_MESSAGE_HEADER_SIZE`. -/
def headerSize : Nat := 64

/-- `NETWORKING_MESSAGE_ACK_RANGE_LIMIT`. -/
def ackRangeLimit : Nat := 4

/-- `NETWORKING_MESSAGE_FRAME_HEADER_SIZE`: the acknowledgement block less four, and the key epoch. -/
def frameHeaderSize : Nat := 1 + ackRangeLimit * 4 - 4 + 8

/-- The largest 64-bit word, `UINT64_MAX`. -/
def uint64Max : Nat := 2 ^ 64 - 1

/-- `networking_message_transport_config`, as `initialize` accepts it: the checks `initialize` makes on the sizes are fields, so a
configuration that it refuses cannot be built. The keys are read by the secure channel and the handshake. -/
structure TransportConfig where
  maximumDatagramSize : UInt32 := 1200
  maximumMessageSize : UInt32 := 1048576
  maximumReassemblyBytes : UInt32 := 8388608
  maximumReassemblyMessages : UInt32 := 128
  maximumQueuedBytes : UInt32 := 4194304
  maximumEvents : UInt32 := 256
  retransmissionTimeoutMilliseconds : UInt32 := 250
  idleTimeoutMilliseconds : UInt32 := 30000
  enableEncryption : Bool := true
  enableAuthenticatedHandshake : Bool := false
  enablePeerKeyPinning : Bool := false
  encryptionKey : Bytes := List.replicate 32 0
  encryptionInitializationVector : Bytes := List.replicate 12 0
  pinnedPeerPublicKey : Bytes := List.replicate 32 0
  datagramSize_ok : headerSize + frameHeaderSize ≤ maximumDatagramSize.toNat := by decide
  messageSize_ok : maximumMessageSize ≠ 0 := by decide
  queuedBytes_ok : maximumQueuedBytes ≠ 0 := by decide
  reassemblyBytes_ok : maximumReassemblyBytes ≠ 0 := by decide
  reassemblyMessages_ok : maximumReassemblyMessages ≠ 0 := by decide

/-- The payload bytes a frame carries at most: the datagram less the packet and the frame header. -/
def TransportConfig.payloadCapacity (cfg : TransportConfig) : Nat :=
  cfg.maximumDatagramSize.toNat - headerSize - frameHeaderSize

/-- The retransmission timeout, in the width times have. -/
def TransportConfig.retransmissionTimeout (cfg : TransportConfig) : UInt64 := cfg.retransmissionTimeoutMilliseconds.toUInt64

/-- The idle timeout, in the width times have. -/
def TransportConfig.idleTimeout (cfg : TransportConfig) : UInt64 := cfg.idleTimeoutMilliseconds.toUInt64

/-- `networking_received_message`. -/
structure ReceivedMessage where
  connectionId : UInt64
  channel : UInt32
  lane : UInt8
  delivery : Delivery
  sequence : UInt64
  payload : Bytes
  deriving DecidableEq, Repr

/-- `networking_ack_range`: packet numbers from `start` to `end_`, both included. -/
structure AckRange where
  start : UInt64
  end_ : UInt64
  deriving DecidableEq, Repr

/-- `outgoing_frame`: one fragment of a queued message. -/
structure OutgoingFrame where
  delivery : Delivery
  lane : UInt8
  channel : UInt32
  messageId : UInt64
  sequence : UInt64
  expiry : UInt64
  totalSize : UInt32
  offset : UInt32
  payload : Bytes
  fragmentCount : UInt8
  deriving DecidableEq, Repr

/-- `sent_packet`: a frame on its way, under the number of the packet that carries it. -/
structure SentPacket where
  packetNumber : UInt64
  sentAt : UInt64
  wireSize : Nat
  retransmitted : Bool := false
  frame : OutgoingFrame
  deriving DecidableEq, Repr

/-- `reassembly_record`: a message of which some bytes have arrived. `received` marks them. -/
structure ReassemblyRecord where
  messageId : UInt64
  sequence : UInt64
  channel : UInt32
  lane : UInt8
  delivery : Delivery
  totalSize : UInt32
  fragmentCount : UInt8
  receivedCount : Nat
  expiresAt : UInt64
  payload : Bytes
  received : List Bool
  deriving DecidableEq, Repr

/-- `connection_record::lane_state`. -/
structure LaneState where
  priorityWeight : UInt32
  reservedBandwidthBytesPerSecond : Nat := 0
  deficit : UInt64 := 0
  sentBytesWindow : Nat := 0
  windowStarted : UInt64 := 0
  deriving DecidableEq, Repr

/-- `connection_record::channel_state`: one record for a channel, with the counters of both directions. -/
structure ChannelState where
  channel : UInt32
  nextReliableSequence : UInt64 := 1
  latestUnreliableSequence : UInt64 := 0
  deriving DecidableEq, Repr

/-- `networking_message_statistics`, without the fields that only repeat a field of the connection for a snapshot. -/
structure Statistics where
  packetsSent : Nat := 0
  packetsReceived : Nat := 0
  bytesSent : Nat := 0
  bytesReceived : Nat := 0
  packetsAcknowledged : Nat := 0
  packetsLost : Nat := 0
  packetsRetransmitted : Nat := 0
  duplicatePackets : Nat := 0
  messagesSent : Nat := 0
  messagesReceived : Nat := 0
  messagesExpired : Nat := 0
  fragmentsReassembled : Nat := 0
  fragmentsDropped : Nat := 0
  reassemblyBytes : Nat := 0
  reassemblyMessages : Nat := 0
  jitterMilliseconds : UInt64 := 0
  queueBytes : Nat := 0
  authenticationFailures : Nat := 0
  pathMigrations : Nat := 0
  laneMessagesSent : Lane → Nat := fun _ => 0
  laneMessagesReceived : Lane → Nat := fun _ => 0
  laneBytesSent : Lane → Nat := fun _ => 0
  laneBytesReceived : Lane → Nat := fun _ => 0
  laneQueuedBytes : Lane → Nat := fun _ => 0

end Libft.Networking
