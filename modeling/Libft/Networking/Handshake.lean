import Libft.Networking.SecureChannel

/-!
# The handshake

`networking_handshake.cpp`: the two hellos, the transcript they make, the keys derived from it, and the finished message that
authenticates both. Private keys and nonces are drawn by the caller.
-/

namespace Libft.Networking

open Bytes

/-- `networking_handshake_state`. -/
inductive HandshakeState where
  | idle | helloReady | peerHelloAccepted | keysDerived | finished | failed
  deriving DecidableEq, Repr

/-- The value of a role on the wire. -/
def Role.toByte : Role → UInt8
  | .client => 0
  | .server => 1

/-- `HANDSHAKE_MAGIC`. -/
def handshakeMagic : Bytes := [0x4c, 0x46, 0x54, 0x48]

/-- `HANDSHAKE_VERSION`. -/
def handshakeVersion : UInt8 := 1

/-- `HELLO_SIZE`. -/
def helloSize : Nat := 4 + 1 + 1 + 2 + 8 + 32 + 32

/-- The bytes of a retry cookie: the time it was issued and its authentication code. -/
def cookieSize : Nat := 40

/-- `networking_handshake`. -/
structure Handshake where
  initialised : Bool := false
  role : Role := .client
  state : HandshakeState := .idle
  localConnectionId : UInt64 := 0
  peerConnectionId : UInt64 := 0
  localPrivateKey : Bytes := []
  localPublicKey : Bytes := []
  peerPublicKey : Bytes := []
  localNonce : Bytes := []
  peerNonce : Bytes := []
  sendKey : TrafficKey := .wiped
  receiveKey : TrafficKey := .wiped
  retryCookie : Bytes := List.replicate cookieSize 0
  hasRetryCookie : Bool := false
  localHello : Bytes := []
  peerHello : Bytes := []
  transcript : Bytes := []
  keysDerived : Bool := false
  finishedVerified : Bool := false
  deriving DecidableEq

namespace Handshake

/-- `build_local_hello`. -/
def buildLocalHello (role : Role) (connectionId : UInt64) (nonce publicKey : Bytes) : Bytes :=
  handshakeMagic ++ (handshakeVersion :: role.toByte :: 0 :: 0 :: (writeU64 connectionId ++ (nonce ++ publicKey)))

/-- `initialize`: a hello is ready, from the private key and the nonce that were drawn. -/
def initialize_ (B : CryptoBackend) (h : Handshake) (role : Role) (localConnectionId : UInt64) (privateKey nonce : Bytes) :
    Except FtError Handshake :=
  if h.initialised = true then .error .alreadyInitialised
  else if localConnectionId = 0 then .error .invalidArgument
  else .ok {
    initialised := true
    role := role
    state := .helloReady
    localConnectionId := localConnectionId
    localPrivateKey := privateKey
    localPublicKey := B.publicKey privateKey
    localNonce := nonce
    localHello := buildLocalHello role localConnectionId nonce (B.publicKey privateKey) }

/-- `get_local_hello`: with the cookie behind it once there is one. -/
def getLocalHello (h : Handshake) : Except FtError Bytes :=
  if h.initialised = false then .error .notInitialised
  else if h.hasRetryCookie = false then .ok h.localHello
  else .ok (h.localHello ++ h.retryCookie)

/-- `accept_peer_hello`. Once there are keys, only the hello they were derived from is accepted again. -/
def acceptPeerHello (h : Handshake) (hello : Bytes) : Except FtError Handshake :=
  if h.initialised = false then .error .notInitialised
  else if hello.length ≠ helloSize ∧ hello.length ≠ helloSize + cookieSize then .error .invalidArgument
  else if h.state = .failed then .error .invalidState
  else if h.state = .keysDerived ∨ h.state = .finished then
    if h.peerHello.length ≠ helloSize ∨ hello.take helloSize ≠ h.peerHello then .error .permissionDenied else .ok h
  else if hello.take 4 ≠ handshakeMagic ∨ (hello.drop 4).head? ≠ some handshakeVersion ∨
      (hello.drop 5).head? = some h.role.toByte ∨ (hello.drop 6).take 2 ≠ [0, 0] then .error .permissionDenied
  else
    match readU64 (hello.drop 8) with
    | none => .error .invalidArgument
    | some (peerConnectionId, _) =>
      if peerConnectionId = 0 then .error .invalidArgument
      else .ok { h with
        peerNonce := (hello.drop 16).take 32
        peerPublicKey := (hello.drop 48).take 32
        peerConnectionId := peerConnectionId
        peerHello := hello.take helloSize
        state := .peerHelloAccepted }

/-- `build_transcript`: the client's hello, then the server's. -/
def buildTranscript (h : Handshake) : Bytes :=
  match h.role with
  | .client => h.localHello ++ h.peerHello
  | .server => h.peerHello ++ h.localHello

/-- `derive_keys`, with the handshake it leaves behind also when it fails. -/
def deriveKeys (B : CryptoBackend) (h : Handshake) : Handshake × FtError :=
  if h.initialised = false then (h, .notInitialised)
  else if h.state ≠ .peerHelloAccepted then (h, .invalidState)
  else
    let transcript := h.buildTranscript
    match B.deriveSessionKeys h.localPrivateKey h.peerPublicKey transcript h.role with
    | none => ({ h with transcript := transcript, state := .failed, sendKey := .wiped, receiveKey := .wiped }, .internal)
    | some (sendKey, receiveKey) =>
      ({ h with
        transcript := transcript
        sendKey := sendKey
        receiveKey := receiveKey
        keysDerived := true
        state := .keysDerived }, .success)

/-- `create_finished`. -/
def createFinished (B : CryptoBackend) (h : Handshake) : Except FtError Bytes :=
  if h.initialised = false ∨ h.keysDerived = false then .error .invalidState
  else .ok (B.hmacSha256 h.sendKey.key h.transcript)

/-- `verify_finished`: a finished message that is not the peer's fails the handshake, whatever its state was. -/
def verifyFinished (B : CryptoBackend) (h : Handshake) (finished : Bytes) : Handshake × FtError :=
  if h.initialised = false ∨ h.keysDerived = false then (h, .invalidState)
  else if B.hmacSha256 h.receiveKey.key h.transcript ≠ finished then ({ h with state := .failed }, .permissionDenied)
  else ({ h with finishedVerified := true, state := .finished }, .success)

/-- `get_traffic_keys`. -/
def getTrafficKeys (h : Handshake) : Except FtError (TrafficKey × TrafficKey) :=
  if h.initialised = false ∨ h.keysDerived = false then .error .invalidState else .ok (h.sendKey, h.receiveKey)

/-- `set_retry_cookie`. -/
def setRetryCookie (h : Handshake) (cookie : Bytes) : Except FtError Handshake :=
  if h.initialised = false then .error .notInitialised
  else if h.role ≠ .client ∨ h.state ≠ .helloReady then .error .invalidState
  else .ok { h with retryCookie := cookie, hasRetryCookie := true }

/-- `get_peer_public_key`. -/
def getPeerPublicKey (h : Handshake) : Except FtError Bytes :=
  if h.initialised = false ∨ h.peerConnectionId = 0 then .error .notFound else .ok h.peerPublicKey

end Handshake

end Libft.Networking
