import Libft.Networking.Defs

/-!
# The secure channel

`networking_secure_channel.cpp`: the traffic keys of the two directions, the previous receive key that a rotation keeps, the
highest number sealed, and one replay window for each receive key. The cryptography itself (`networking_crypto_backend.cpp`) is a
parameter; `CryptoBackend.Ideal` is what is assumed of it where a result needs more than its shape.
-/

namespace Libft.Networking

open Bytes Option

/-- A key and its initialization vector, which are derived and installed together. -/
structure TrafficKey where
  key : Bytes
  initializationVector : Bytes
  key_length : key.length = 32
  initializationVector_length : initializationVector.length = 12
  deriving DecidableEq

/-- The key of zeros that a wiped key is. -/
def TrafficKey.wiped : TrafficKey := ⟨List.replicate 32 0, List.replicate 12 0, rfl, rfl⟩

/-- `networking_handshake_role`, which is also the role session keys are derived for. -/
inductive Role where
  | client | server
  deriving DecidableEq, Repr

/-- `networking_crypto_backend`. Sealing gives the ciphertext with the authentication tag behind it. The functions have no state of
their own and do not fail on arguments of the sizes the channel gives them; deriving the session keys may. -/
structure CryptoBackend where
  seal_ : (key nonce associatedData plaintext : Bytes) → Bytes
  open_ : (key nonce associatedData sealed : Bytes) → Option Bytes
  deriveKeyUpdate : TrafficKey → UInt64 → TrafficKey
  hmacSha256 : (key data : Bytes) → Bytes
  sha256 : Bytes → Bytes
  publicKey : (privateKey : Bytes) → Bytes
  deriveSessionKeys : (privateKey peerPublicKey transcript : Bytes) → Role → Option (TrafficKey × TrafficKey)

/-- The bytes of the authentication tag. -/
def tagSize : Nat := 16

/-- Idealised authenticated encryption: opening succeeds exactly on what was sealed under the same key, nonce and associated
data, and what was sealed under others is different. -/
structure CryptoBackend.Ideal (B : CryptoBackend) : Prop where
  open_eq_some : ∀ key nonce ad sealed plaintext,
    B.open_ key nonce ad sealed = some plaintext ↔ sealed = B.seal_ key nonce ad plaintext
  seal_inj : ∀ key nonce ad plaintext key' nonce' ad' plaintext',
    B.seal_ key nonce ad plaintext = B.seal_ key' nonce' ad' plaintext' → key = key' ∧ nonce = nonce' ∧ ad = ad'
  length_seal : ∀ key nonce ad plaintext, tagSize ≤ (B.seal_ key nonce ad plaintext).length

/-! ## The replay window -/

/-- The numbers received under one key: whether there is one, the highest, and the bitmap of the 64 numbers that end there. -/
structure ReplayWindow where
  hasReceivedPacket : Bool := false
  highestReceivedPacket : UInt64 := 0
  receivedWindow : UInt64 := 0
  deriving DecidableEq, Repr

/-- `accepts_packet_number` and `accepts_previous_packet_number`, which differ only in the window they read. -/
def ReplayWindow.acceptsPacketNumber (W : ReplayWindow) (packetNumber : UInt64) : Bool :=
  if W.hasReceivedPacket = false then true
  else if W.highestReceivedPacket < packetNumber then true
  else
    let difference := W.highestReceivedPacket - packetNumber
    if 64 ≤ difference then false
    else decide (W.receivedWindow &&& ((1 : UInt64) <<< difference) = 0)

/-- `record_packet_number` and `record_previous_packet_number`. -/
def ReplayWindow.recordPacketNumber (W : ReplayWindow) (packetNumber : UInt64) : ReplayWindow :=
  if W.hasReceivedPacket = false then ⟨true, packetNumber, 1⟩
  else if W.highestReceivedPacket < packetNumber then
    let difference := packetNumber - W.highestReceivedPacket
    { W with
      receivedWindow := if 64 ≤ difference then 1 else (W.receivedWindow <<< difference) ||| 1
      highestReceivedPacket := packetNumber }
  else
    let difference := W.highestReceivedPacket - packetNumber
    if difference < 64 then { W with receivedWindow := W.receivedWindow ||| ((1 : UInt64) <<< difference) } else W

/-! ## The channel -/

/-- `networking_secure_channel`. -/
structure SecureChannel where
  initialised : Bool := false
  sendKey : TrafficKey := .wiped
  receiveKey : TrafficKey := .wiped
  previousReceiveKey : TrafficKey := .wiped
  sendKeyEpoch : UInt64 := 0
  receiveKeyEpoch : UInt64 := 0
  previousReceiveKeyEpoch : UInt64 := 0
  hasSentPacket : Bool := false
  highestSentPacket : UInt64 := 0
  received : ReplayWindow := {}
  previousReceived : ReplayWindow := {}
  hasPreviousReceiveKey : Bool := false
  deriving DecidableEq

namespace SecureChannel

/-- `initialize_directional`. -/
def initializeDirectional (ch : SecureChannel) (sendKey receiveKey : TrafficKey) : Except FtError SecureChannel :=
  if ch.initialised = true then .error .alreadyInitialised
  else .ok { initialised := true, sendKey := sendKey, receiveKey := receiveKey }

/-- `prepare_nonce`: the packet number, most significant byte first, over the last eight bytes of the vector. -/
def prepareNonce (initializationVector : Bytes) (packetNumber : UInt64) : Bytes :=
  initializationVector.take 4 ++ List.zipWith (· ^^^ ·) (initializationVector.drop 4) (writeU64 packetNumber)

/-- `has_receive_epoch`. -/
def hasReceiveEpoch (ch : SecureChannel) (keyEpoch : UInt64) : Bool :=
  if ch.initialised = false then false
  else if keyEpoch = ch.receiveKeyEpoch then true
  else ch.hasPreviousReceiveKey && decide (keyEpoch = ch.previousReceiveKeyEpoch)

/-- `seal`. The channel remembers the number as soon as the backend has sealed; `storage` is whether the ciphertext could be
allocated. -/
def seal_ (B : CryptoBackend) (ch : SecureChannel) (storage : Bool) (packetNumber : UInt64)
    (associatedData plaintext : Bytes) : Option (Bytes × SecureChannel) :=
  if ch.initialised = false then none
  else if ch.hasSentPacket = true ∧ packetNumber ≤ ch.highestSentPacket then none
  else if storage = false then none
  else
    let nonce := prepareNonce ch.sendKey.initializationVector packetNumber
    some (B.seal_ ch.sendKey.key nonce associatedData plaintext,
      { ch with highestSentPacket := packetNumber, hasSentPacket := true })

/-- `open_at_epoch`. -/
def openAtEpoch (B : CryptoBackend) (ch : SecureChannel) (storage : Bool) (packetNumber keyEpoch : UInt64)
    (associatedData sealed : Bytes) : Option (Bytes × SecureChannel) :=
  if ch.hasReceiveEpoch keyEpoch = false then none
  else if keyEpoch = ch.receiveKeyEpoch then
    if ch.received.acceptsPacketNumber packetNumber = false ∨ storage = false then none
    else
      let nonce := prepareNonce ch.receiveKey.initializationVector packetNumber
      (B.open_ ch.receiveKey.key nonce associatedData sealed).map fun plaintext =>
        (plaintext, { ch with received := ch.received.recordPacketNumber packetNumber })
  else
    if ch.previousReceived.acceptsPacketNumber packetNumber = false ∨ storage = false then none
    else
      let nonce := prepareNonce ch.previousReceiveKey.initializationVector packetNumber
      (B.open_ ch.previousReceiveKey.key nonce associatedData sealed).map fun plaintext =>
        (plaintext, { ch with previousReceived := ch.previousReceived.recordPacketNumber packetNumber })

/-- `open`: at the current receive epoch. -/
def open_ (B : CryptoBackend) (ch : SecureChannel) (storage : Bool) (packetNumber : UInt64)
    (associatedData sealed : Bytes) : Option (Bytes × SecureChannel) :=
  ch.openAtEpoch B storage packetNumber ch.receiveKeyEpoch associatedData sealed

/-- `update_key_epoch`: both directions at once. The previous receive key stays what it was. -/
def updateKeyEpoch (B : CryptoBackend) (ch : SecureChannel) (nextEpoch : UInt64) : Except FtError SecureChannel :=
  if ch.initialised = false then .error .notInitialised
  else if nextEpoch ≤ ch.sendKeyEpoch ∨ nextEpoch ≤ ch.receiveKeyEpoch then .error .invalidArgument
  else .ok { ch with
    sendKey := B.deriveKeyUpdate ch.sendKey nextEpoch
    receiveKey := B.deriveKeyUpdate ch.receiveKey nextEpoch
    sendKeyEpoch := nextEpoch
    receiveKeyEpoch := nextEpoch
    hasSentPacket := false
    highestSentPacket := 0
    received := {} }

/-- `update_send_key_epoch`. -/
def updateSendKeyEpoch (B : CryptoBackend) (ch : SecureChannel) (nextEpoch : UInt64) : Except FtError SecureChannel :=
  if ch.initialised = false then .error .notInitialised
  else if nextEpoch ≤ ch.sendKeyEpoch then .error .invalidArgument
  else .ok { ch with
    sendKey := B.deriveKeyUpdate ch.sendKey nextEpoch
    sendKeyEpoch := nextEpoch
    hasSentPacket := false
    highestSentPacket := 0 }

/-- `update_receive_key_epoch`: the key and the window in use become the previous ones. -/
def updateReceiveKeyEpoch (B : CryptoBackend) (ch : SecureChannel) (nextEpoch : UInt64) : Except FtError SecureChannel :=
  if ch.initialised = false then .error .notInitialised
  else if nextEpoch ≤ ch.receiveKeyEpoch then .error .invalidArgument
  else .ok { ch with
    previousReceiveKey := ch.receiveKey
    previousReceiveKeyEpoch := ch.receiveKeyEpoch
    previousReceived := ch.received
    hasPreviousReceiveKey := true
    receiveKey := B.deriveKeyUpdate ch.receiveKey nextEpoch
    receiveKeyEpoch := nextEpoch
    received := {} }

/-- `clear_previous_receive_key`. -/
def clearPreviousReceiveKey (ch : SecureChannel) : Except FtError SecureChannel :=
  if ch.initialised = false then .error .notInitialised
  else if ch.hasPreviousReceiveKey = false then .ok ch
  else .ok { ch with
    previousReceiveKey := .wiped
    previousReceiveKeyEpoch := 0
    previousReceived := {}
    hasPreviousReceiveKey := false }

/-! ## What the operations can do -/

variable {B : CryptoBackend} {ch ch' : SecureChannel} {storage : Bool} {n : UInt64} {ad plaintext box : Bytes}

/-- A channel that seals remembers the number. -/
theorem seal_eq_some (h : ch.seal_ B storage n ad plaintext = some (box, ch')) :
    ch.initialised = true ∧
      box = B.seal_ ch.sendKey.key (prepareNonce ch.sendKey.initializationVector n) ad plaintext ∧
      ch' = { ch with highestSentPacket := n, hasSentPacket := true } := by
  unfold seal_ at h
  split at h
  · cases h
  rename_i hi
  split at h
  · cases h
  split at h
  · cases h
  simp only [some.injEq, Prod.mk.injEq] at h
  exact ⟨by simpa using hi, h.1.symm, h.2.symm⟩

theorem hasReceiveEpoch_iff (ch : SecureChannel) (ep : UInt64) :
    ch.hasReceiveEpoch ep = true ↔ ch.initialised = true ∧
      (ep = ch.receiveKeyEpoch ∨ ch.hasPreviousReceiveKey = true ∧ ep = ch.previousReceiveKeyEpoch) := by
  unfold hasReceiveEpoch
  by_cases hi : ch.initialised = true
  · by_cases he : ep = ch.receiveKeyEpoch
    · simp [hi, he]
    · simp [hi, he]
  · simp [hi]

/-- A packet opens under the current key or, at the epoch of the previous key, under that one; its number is then recorded in the
window of the key. -/
theorem openAtEpoch_eq_some {ep : UInt64} (h : ch.openAtEpoch B storage n ep ad box = some (plaintext, ch')) :
    (ep = ch.receiveKeyEpoch ∧ ch.received.acceptsPacketNumber n = true ∧
      B.open_ ch.receiveKey.key (prepareNonce ch.receiveKey.initializationVector n) ad box = some plaintext ∧
      ch' = { ch with received := ch.received.recordPacketNumber n }) ∨
    (ep ≠ ch.receiveKeyEpoch ∧ ch.hasPreviousReceiveKey = true ∧ ep = ch.previousReceiveKeyEpoch ∧
      ch.previousReceived.acceptsPacketNumber n = true ∧
      B.open_ ch.previousReceiveKey.key (prepareNonce ch.previousReceiveKey.initializationVector n) ad box = some plaintext ∧
      ch' = { ch with previousReceived := ch.previousReceived.recordPacketNumber n }) := by
  unfold openAtEpoch at h
  split at h
  · cases h
  rename_i hh
  split at h
  · rename_i he
    split at h
    · cases h
    rename_i ha
    simp only [not_or, Bool.not_eq_false] at ha
    obtain ⟨p, hp, heq⟩ := map_eq_some_iff.1 h
    simp only [Prod.mk.injEq] at heq
    exact .inl ⟨he, ha.1, heq.1 ▸ hp, heq.2.symm⟩
  · rename_i he
    have hpr := (hasReceiveEpoch_iff ch ep).1 (by simpa using hh)
    split at h
    · cases h
    rename_i ha
    simp only [not_or, Bool.not_eq_false] at ha
    obtain ⟨p, hp, heq⟩ := map_eq_some_iff.1 h
    simp only [Prod.mk.injEq] at heq
    obtain ⟨hhp, hep⟩ := hpr.2.resolve_left he
    exact .inr ⟨he, hhp, hep, ha.1, heq.1 ▸ hp, heq.2.symm⟩

/-- At the current receive epoch a number that the window accepts leaves the decision to the backend. -/
theorem open_of_accepts (hi : ch.initialised = true) (ha : ch.received.acceptsPacketNumber n = true) (ad box : Bytes) :
    ch.open_ B true n ad box =
      (B.open_ ch.receiveKey.key (prepareNonce ch.receiveKey.initializationVector n) ad box).map fun plaintext =>
        (plaintext, { ch with received := ch.received.recordPacketNumber n }) := by
  simp [open_, openAtEpoch, hasReceiveEpoch, hi, ha]

end SecureChannel

end Libft.Networking
