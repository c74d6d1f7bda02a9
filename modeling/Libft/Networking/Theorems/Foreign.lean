import Libft.Networking.Calls

/-!
# Datagrams that the peer did not produce

An established connection is to ignore what its peer did not produce. A packet that is sealed, or should be, is opened before anything
is done with it, and what was not sealed under a receive key does not open. The packets of the handshake are not sealed: a hello from
where the peer is, or a finished message from anywhere, is held against the handshake, and one that is not the peer's fails the
connection.
-/

namespace Libft.Networking

open List Bool SecureChannel PacketType Handshake

/-- A connection that is connected, whose keys are those of a handshake that finished. -/
structure Established (Γ : Ctx) (c : ConnectionRecord) : Prop where
  connected : c.state = .connected
  encrypted : c.secureEnabled = true
  authenticated : Γ.cfg.enableAuthenticatedHandshake = true
  initialised : c.handshake.initialised = true
  keysDerived : c.handshake.keysDerived = true
  finished : c.handshake.state = .finished

/-- The keys that datagrams are opened under. -/
def SecureChannel.receiveKeys (ch : SecureChannel) : List TrafficKey :=
  ch.receiveKey :: if ch.hasPreviousReceiveKey = true then [ch.previousReceiveKey] else []

/-- A datagram that the peer did not produce: no end of it was sealed under a receive key, and what it carries is neither the hello nor
the finished message of the peer. -/
structure Foreign (B : CryptoBackend) (c : ConnectionRecord) (data : Bytes) : Prop where
  traffic : ∀ key ∈ c.secureChannel.receiveKeys, ∀ length nonce plaintext,
    data.drop length ≠ B.seal_ key.key nonce (data.take length) plaintext
  hello : (readHandshakePayload data).map (take helloSize) ≠ some c.handshake.peerHello
  finished : readHandshakePayload data ≠ some (B.hmacSha256 c.handshake.receiveKey.key c.handshake.transcript)

/-- What a connection keeps: it is connected, and its keys, the address of its peer and its queues are what they were. -/
structure Kept (n n' : Node) : Prop where
  state : n'.connection.state = .connected
  secureChannel : n'.connection.secureChannel = n.connection.secureChannel
  handshake : n'.connection.handshake = n.connection.handshake
  remote : n'.connection.remote = n.connection.remote
  sent : n'.connection.sent = n.connection.sent
  pending : n'.connection.pendingLanes = n.connection.pendingLanes
  reassembly : n'.connection.reassembly = n.connection.reassembly
  orderedPending : n'.connection.orderedPending = n.connection.orderedPending

/-- Whether a datagram is held against the handshake of a connected connection: it is a hello from where the peer is, or a finished
message from anywhere, and has the size of one. -/
def entersHandshake (c : ConnectionRecord) (source : Endpoint) (data : Bytes) : Bool :=
  match readHeader data, readHandshakePayload data with
  | some header, some payload =>
    decide (header.connectionId = c.id) &&
      match header.type with
      | .handshakeHello =>
        (decide (payload.length = helloSize) || decide (payload.length = helloSize + cookieSize)) && decide (c.remote = source)
      | .handshakeFinished => decide (payload.length = 32)
      | _ => false
  | _, _ => false

/-! ## One datagram -/

section

variable {Γ : Ctx} {e : Env} {n : Node} {source : Endpoint} {data : Bytes}

/-- What was not sealed under a receive key does not open. -/
theorem openDatagram_of_foreign (hB : Γ.crypto.Ideal) (hs : n.connection.secureEnabled = true)
    (hf : Foreign Γ.crypto n.connection data) (type : PacketType) : ∃ code, openDatagram Γ e n type data = .error code := by
  have hb : ∀ key ∈ n.connection.secureChannel.receiveKeys, ∀ length nonce p,
      Γ.crypto.open_ key.key nonce (data.take length) (data.drop length) ≠ some p :=
    fun key hk length nonce p ho =>
      hf.traffic key hk length nonce p ((hB.open_eq_some _ _ _ _ _).1 ho)
  cases ho : openDatagram Γ e n type data with
  | error code => exact ⟨code, rfl⟩
  | ok r =>
    obtain ⟨pkt, n'⟩ := r
    exfalso
    rcases openDatagram_cases ho with ⟨hpl, -, -⟩ | ⟨-, nm, ep, -, -, p, ch, -, -, hch, -, -⟩
    · exact absurd (hs.symm.trans hpl) nofun
    rcases openAtEpoch_eq_some hch with ⟨-, -, hk, -⟩ | ⟨-, hp, -, -, hk, -⟩
    · exact hb _ (by simp [receiveKeys]) _ _ _ hk
    · exact hb _ (by simp [receiveKeys, hp]) _ _ _ hk

/-- A foreign packet that is not of the handshake changes nothing. -/
theorem processPacket_of_foreign (hB : Γ.crypto.Ideal) (hs : n.connection.secureEnabled = true)
    (hf : Foreign Γ.crypto n.connection data) (type : PacketType) (flag : UInt8) : (processPacket Γ e n source type flag data).1 = n := by
  obtain ⟨code, ho⟩ := openDatagram_of_foreign (e := e) hB hs hf type
  unfold processPacket
  simp only [ho]
  split
  · rfl
  split
  · rfl
  · rfl

/-- A foreign hello that is looked at fails the connection. -/
theorem processHello_of_foreign (hn : Established Γ n.connection) {he : Bytes} (size : Nat)
    (hl : he.length = helloSize ∨ he.length = helloSize + cookieSize) (hc : n.connection.remote = source)
    (hf : he.take helloSize ≠ n.connection.handshake.peerHello) :
    (processHello Γ e n source he size).1.connection.state = .failed := by
  have hr : n.connection.handshake.acceptPeerHello he = .error .permissionDenied := by
    have hs : ¬(he.length ≠ helloSize ∧ he.length ≠ helloSize + cookieSize) := by tauto
    unfold acceptPeerHello
    rw [if_neg (by simp [hn.initialised]), if_neg hs, if_neg (by simp [hn.finished]), if_pos (.inr hn.finished), if_pos (.inr hf)]
  have ha : acceptHello Γ n.connection he = (n.connection, .permissionDenied) := by
    simp only [acceptHello, hr]
  unfold processHello
  rw [if_neg (by tauto), if_neg (by simp [hn.connected]), if_neg (by simp [hc])]
  simp [ha, countReceived]

/-- A foreign finished message that is looked at fails the connection. -/
theorem processFinished_of_foreign (hn : Established Γ n.connection) {finished : Bytes} (size : Nat)
    (hl : finished.length = 32)
    (hf : Γ.crypto.hmacSha256 n.connection.handshake.receiveKey.key n.connection.handshake.transcript ≠ finished) :
    (processFinished Γ e n finished size).1.connection.state = .failed := by
  have hr : n.connection.handshake.verifyFinished Γ.crypto finished =
      ({ n.connection.handshake with state := .failed }, .permissionDenied) := by
    simp [verifyFinished, hn.initialised, hn.keysDerived, hf]
  unfold processFinished
  rw [if_neg (by simp [hn.connected, hl])]
  simp [hr]

/-- A handshake packet that is not held against the handshake changes nothing. -/
theorem processHandshake_of_not_enters (hn : Established Γ n.connection) {hdr : Header} (hr : readHeader data = some hdr)
    (hid : hdr.connectionId = n.connection.id) (hh : hdr.type.isHandshake = true)
    (he : entersHandshake n.connection source data = false) : (processHandshake Γ e n source hdr.type data).1 = n := by
  unfold processHandshake
  rw [if_neg (by simp [hn.authenticated])]
  cases hpay : readHandshakePayload data with
  | none => rfl
  | some payload =>
    simp only [entersHandshake, hr, hpay, hid, decide_true, Bool.true_and] at he
    cases ht : hdr.type with
    | handshakeRetry => simp [processRetry, hn.connected]
    | handshakeHello =>
      simp only [ht, Bool.and_eq_false_iff, Bool.or_eq_false_iff, decide_eq_false_iff_not] at he
      unfold processHello
      dsimp only
      split
      · rfl
      split
      · rfl
      rename_i hs _
      rw [if_pos (he.resolve_left hs)]
    | handshakeFinished =>
      simp only [ht, decide_eq_false_iff_not] at he
      simp [processFinished, he]
    | _ => simp [ht, isHandshake] at hh

/-- A foreign datagram that is not held against the handshake changes nothing. -/
theorem processDatagram_of_not_enters (hB : Γ.crypto.Ideal) (hn : Established Γ n.connection)
    (hf : Foreign Γ.crypto n.connection data) (he : entersHandshake n.connection source data = false) :
    (processDatagram Γ e n source data).1 = n := by
  unfold processDatagram
  cases hheader : readHeader data with
  | none => rfl
  | some hdr =>
    dsimp only
    split
    · rfl
    rename_i hid
    split
    · rename_i hh
      exact processHandshake_of_not_enters hn hheader (not_not.1 hid) hh he
    · exact processPacket_of_foreign hB hn.encrypted hf _ _

/-- A foreign datagram that is held against the handshake fails the connection. -/
theorem processDatagram_of_enters (hn : Established Γ n.connection) (hf : Foreign Γ.crypto n.connection data)
    (he : entersHandshake n.connection source data = true) : (processDatagram Γ e n source data).1.connection.state = .failed := by
  unfold entersHandshake at he
  split at he
  · rename_i hdr payload hr hp
    rw [and_eq_true, decide_eq_true_eq] at he
    obtain ⟨hid, he⟩ := he
    unfold processDatagram
    simp only [hr, hid, ne_eq, not_true_eq_false, if_false]
    split at he
    · rename_i ht
      simp only [and_eq_true, or_eq_true, decide_eq_true_eq] at he
      simp only [ht, isHandshake, if_true, processHandshake, hn.authenticated, hp, true_eq_false, if_false]
      exact processHello_of_foreign hn _ he.1 he.2 fun hh => hf.hello (by rw [hp, Option.map_some, hh])
    · rename_i ht
      simp only [decide_eq_true_eq] at he
      simp only [ht, isHandshake, if_true, processHandshake, hn.authenticated, hp, true_eq_false, if_false]
      exact processFinished_of_foreign hn _ he fun hfn => hf.finished (by rw [hp, hfn])
    · cases he
  · cases he

end

/-! ## Sequences of datagrams -/

/-- A datagram, where it came from, and what the system does while it is processed. -/
structure Arrival where
  source : Endpoint
  data : Bytes
  env : Env

/-- The call that processes it. -/
def Arrival.input (a : Arrival) : Input := ⟨.process a.source a.data, a.env⟩

theorem run_of_not_enters {Γ : Ctx} (hB : Γ.crypto.Ideal) {n : Node} (hn : Established Γ n.connection) {arr : List Arrival}
    (hf : ∀ a ∈ arr, Foreign Γ.crypto n.connection a.data)
    (he : ∀ a ∈ arr, entersHandshake n.connection a.source a.data = false) : run Γ n (arr.map Arrival.input) = n := by
  induction arr with
  | nil => rfl
  | cons a tl ih =>
    have hs : step Γ n a.input = n := processDatagram_of_not_enters hB hn (hf a mem_cons_self) (he a mem_cons_self)
    rw [map_cons, run, foldl_cons, hs]
    exact ih (forall_mem_cons.mp hf).2 (forall_mem_cons.mp he).2

/-- An established connection keeps all it has through every sequence of foreign datagrams exactly when none of them is held against
its handshake. -/
theorem kept_iff_not_entersHandshake {Γ : Ctx} (hB : Γ.crypto.Ideal) (n : Node) (hn : Established Γ n.connection)
    (arrivals : List Arrival) (hforeign : ∀ a ∈ arrivals, Foreign Γ.crypto n.connection a.data) :
    (∀ count, Kept n (run Γ n ((arrivals.take count).map Arrival.input))) ↔
      ∀ a ∈ arrivals, entersHandshake n.connection a.source a.data = false := by
  constructor
  · intro hk
    induction arrivals with
    | nil => nofun
    | cons a tl ih =>
      have hforeign_a := hforeign a mem_cons_self
      have hs : (step Γ n a.input).connection.state = .connected := (hk 1).state
      have he : entersHandshake n.connection a.source a.data = false := by
        by_contra hc
        have hf : (step Γ n a.input).connection.state = .failed := processDatagram_of_enters hn hforeign_a (by simpa using hc)
        exact absurd (hs.symm.trans hf) nofun
      have hst : step Γ n a.input = n := processDatagram_of_not_enters hB hn hforeign_a he
      refine forall_mem_cons.2 ⟨he, ih (forall_mem_cons.mp hforeign).2 fun count => ?_⟩
      have hnx := hk (count + 1)
      rw [take_succ_cons, map_cons, run, foldl_cons, hst] at hnx
      exact hnx
  · intro he count
    have hfr : run Γ n ((arrivals.take count).map Arrival.input) = n :=
      run_of_not_enters hB hn (fun a ha => hforeign a (mem_of_mem_take ha)) fun a ha =>
        he a (mem_of_mem_take ha)
    rw [hfr]
    exact ⟨hn.connected, rfl, rfl, rfl, rfl, rfl, rfl, rfl⟩

/-- A transport whose connections start with a handshake. -/
def handshakeCtx : Ctx := ⟨symbolicBackend, { defaultConfig with enableAuthenticatedHandshake := true }⟩

/-- A client that has said hello. -/
def greetingNode : Node :=
  openNode.modify fun c => { c with
    state := .handshaking
    secureEnabled := true
    handshakeEnabled := true
    handshake := (({} : Handshake).initialize_ symbolicBackend .client 7 (replicate 32 1) (replicate 32 2)).toOption.getD {} }

/-- A handshake packet with a payload, from an address. -/
def handshakeArrival (type : PacketType) (payload : Bytes) (source : Endpoint) : Arrival where
  source := source
  data := (encodeHandshake type 7 payload handshakeCtx.cfg.maximumDatagramSize.toNat).getD []
  env := { now := 1000 }

/-- The client after the hello and the finished message of its server. -/
def greetedNode : Node :=
  run handshakeCtx greetingNode <| [
    handshakeArrival .handshakeHello
      (buildLocalHello .server 9 (replicate 32 3) (replicate 32 4)) ⟨[1]⟩,
    handshakeArrival .handshakeFinished (replicate 32 0) ⟨[1]⟩].map Arrival.input

theorem established_greetedNode : Established handshakeCtx greetedNode.connection := by
  refine ⟨?_, ?_, ?_, ?_, ?_, ?_⟩ <;> decide +kernel

/-- A symbolic box names the key of 32 bytes that it was sealed under: what is too short for that was not sealed. -/
theorem foreign_of_length_le {c : ConnectionRecord} {data : Bytes} (hl : data.length ≤ 80)
    (hh : (readHandshakePayload data).map (take helloSize) ≠ some c.handshake.peerHello)
    (hf : readHandshakePayload data ≠ some c.handshake.receiveKey.key) :
    Foreign symbolicBackend c data where
  traffic key _ length nonce plaintext heq := by
    have hb := congrArg List.length heq
    simp only [symbolicBackend, symbolicLabel, tagSize, length_drop, length_append, length_replicate,
      length_delimit, key.key_length] at hb
    omega
  hello := hh
  finished := hf

/-- A datagram that starts like a frame and is none, from an address of which the connection never heard. -/
theorem kept_after_noise :
    let arrivals : List Arrival := [⟨⟨[9]⟩, encodeHeader .frame 0 7 ++ replicate 40 0, { now := 1000 }⟩]
    ∀ cnt, Kept greetedNode (run handshakeCtx greetedNode ((arrivals.take cnt).map Arrival.input)) := by
  intro arrivals
  refine (kept_iff_not_entersHandshake symbolicBackend_ideal greetedNode established_greetedNode arrivals ?_).2 (by decide +kernel)
  intro a ha
  rw [mem_singleton.1 ha]
  exact foreign_of_length_le (by decide) (by decide +kernel) (by decide +kernel)

/-- A finished message of another key, from an address of which the connection never heard, is foreign, and fails the connection. -/
theorem kept_false_after_forged_finished :
    Established handshakeCtx greetedNode.connection ∧
      Foreign handshakeCtx.crypto greetedNode.connection
        (handshakeArrival .handshakeFinished (replicate 32 1) ⟨[9]⟩).data ∧
      (run handshakeCtx greetedNode
        [(handshakeArrival .handshakeFinished (replicate 32 1) ⟨[9]⟩).input]).connection.state = .failed ∧
      ¬Kept greetedNode (run handshakeCtx greetedNode [(handshakeArrival .handshakeFinished (replicate 32 1) ⟨[9]⟩).input]) := by
  have hf : (run handshakeCtx greetedNode
      [(handshakeArrival .handshakeFinished (replicate 32 1) ⟨[9]⟩).input]).connection.state = .failed := by
    decide +kernel
  exact ⟨established_greetedNode, foreign_of_length_le (by decide +kernel) (by decide +kernel) (by decide +kernel), hf,
    fun hk => absurd (hk.state.symm.trans hf) nofun⟩

end Libft.Networking
