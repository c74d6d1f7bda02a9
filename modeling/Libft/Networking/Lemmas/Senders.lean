import Libft.Networking.Machine

/-!
# The calls of the application are steps

The senders of single packets put a packet on the wire, or seal one that does not leave, or do nothing; a message that is accepted is
queued, and one that is not leaves the core as it was; closing, key updates and limits are a step or two each.
-/

namespace Libft.Networking

open Bytes Option Networking.Core SecureChannel PacketType Packet

variable {Γ : Ctx} {e : Env} {n n' : Node} {p : Packet} {data : Bytes} {ch : SecureChannel} {B : CryptoBackend} {storage : Bool}
  {opt : SendOptions}

/-! ## Sealing -/

theorem protectPacket_storage {packet : Bytes} {r : Bytes × SecureChannel}
    (h : protectPacket B ch storage packet = some r) : protectPacket B ch true packet = some r := by
  cases storage with
  | true => exact h
  | false =>
    unfold protectPacket at h
    split at h
    · cases h
    · simp [seal_] at h

theorem protectFor_eq_some {place : SendPlace} {protect : Bool} {bs : Bytes}
    (h : protectFor Γ e place protect n bs = some (data, n')) :
    ∃ ch, n' = n.modify (fun c => { c with secureChannel := ch }) ∧
      if protect = true then protectPacket Γ.crypto n.connection.secureChannel true bs = some (data, ch)
      else data = bs ∧ ch = n.connection.secureChannel := by
  unfold protectFor at h
  split at h
  · rename_i hp
    obtain ⟨⟨packet, ch⟩, hpp, heq⟩ := map_eq_some_iff.1 h
    simp only [Prod.mk.injEq] at heq
    refine ⟨ch, heq.2.symm, ?_⟩
    rw [if_pos hp, ← heq.1]
    exact protectPacket_storage hpp
  · rename_i hp
    simp only [some.injEq, Prod.mk.injEq] at h
    exact ⟨n.connection.secureChannel, h.2.symm, by rw [if_neg hp]; exact ⟨h.1.symm, rfl⟩⟩

/-- A channel that protected a packet remembers its number. -/
theorem protectPacket_eq_some {ch' : SecureChannel} {packet : Bytes} (h : protectPacket B ch storage packet = some (data, ch')) :
    ∃ type num tl, ((packet.drop 2).head?.bind ofByte?).getD .frame = type ∧
      readU64 (packet.drop type.packetNumberOffset) = some (num, tl) ∧
      ch.initialised = true ∧
      data = packet.take type.associatedDataLength ++ B.seal_ ch.sendKey.key
        (prepareNonce ch.sendKey.initializationVector num) (packet.take type.associatedDataLength)
        (packet.drop type.associatedDataLength) ∧
      ch' = { ch with highestSentPacket := num, hasSentPacket := true } := by
  unfold protectPacket at h
  split at h
  · cases h
  obtain ⟨⟨num, tl⟩, hr, h⟩ := bind_eq_some_iff.1 h
  obtain ⟨⟨box, ch''⟩, hs, h⟩ := bind_eq_some_iff.1 h
  simp only [pure_def, some.injEq, Prod.mk.injEq] at h
  obtain ⟨hi, hb, hch⟩ := seal_eq_some hs
  refine ⟨_, num, tl, rfl, hr, hi, ?_, ?_⟩
  · rw [← h.1, hb]
  · rw [← h.2, hch]

/-- The type of an encoded packet stands where the type stands. -/
theorem Packet.type_encode (p : Packet) (id num ep : UInt64) :
    (((p.encode id num ep).drop 2).head?.bind ofByte?).getD .frame = p.type := by
  cases p <;> rfl

/-- What stands in front of the number of a packet. -/
def Packet.front (id : UInt64) : Packet → Bytes
  | .frame f _ _ => encodeHeader .frame f.delivery.toByte id ++ writeU64 f.messageId
  | p => encodeHeader p.type p.flag id

/-- What stands behind the epoch of a packet. -/
def Packet.body : Packet → Bytes
  | .frame f largest ranges =>
    writeU64 largest ++ (encodeAckRanges largest ranges ++ (writeU32 f.channel ++ (f.lane :: f.fragmentCount ::
      (writeU32 f.totalSize ++ (writeU32 f.offset ++ (writeU64 f.sequence ++
        (writeU16 (UInt16.ofNat f.payload.length) ++ f.payload)))))))
  | .ack largest ranges => writeU64 largest ++ encodeAckRanges largest ranges
  | .close reason text => writeU16 reason ++ (UInt8.ofNat text.length :: text)
  | .pathChallenge token | .pathResponse token => token
  | .flowControl value | .keyUpdate value | .keyUpdateAck value => writeU64 value

theorem Packet.encode_eq (p : Packet) (id num ep : UInt64) :
    p.encode id num ep = p.front id ++ (writeU64 num ++ (writeU64 ep ++ p.body)) := by
  cases p <;> rfl

theorem Packet.length_front (p : Packet) (id : UInt64) : (p.front id).length = p.type.packetNumberOffset := by
  cases p <;> simp [front, type, packetNumberOffset]

/-- What stands in front of the number starts with the header. -/
theorem Packet.front_eq (p : Packet) (id : UInt64) : ∃ more, p.front id = encodeHeader p.type p.flag id ++ more := by
  cases p with
  | frame f top rs => exact ⟨writeU64 f.messageId, rfl⟩
  | _ => exact ⟨[], (List.append_nil _).symm⟩

/-- A packet that was sealed: the channel remembers its number. -/
theorem Core.Protects.sealed {c : Core} (h : c.Protects Γ p data ch) (hp : c.protects p = true) :
    c.channel.initialised = true ∧
      data = (c.packet p).take p.type.associatedDataLength ++ Γ.crypto.seal_ c.channel.sendKey.key
        (prepareNonce c.channel.sendKey.initializationVector c.nextPacket)
        ((c.packet p).take p.type.associatedDataLength) ((c.packet p).drop p.type.associatedDataLength) ∧
      ch = { c.channel with highestSentPacket := c.nextPacket, hasSentPacket := true } := by
  rw [Core.Protects, if_pos hp] at h
  obtain ⟨type, number, rest, ht, hr, hint, hd, hch⟩ := protectPacket_eq_some h
  rw [packet, type_encode] at ht
  subst ht
  rw [packet, encode_eq, List.drop_left' (p.length_front c.id), readU64_write, some.injEq, Prod.mk.injEq] at hr
  rw [← hr.1] at hd hch
  exact ⟨hint, hd, hch⟩

/-! ## Single packets -/

/-- What a sender may do: send, or seal a packet that the system then refuses to send. -/
def Sends (e : Env) : Label → Prop
  | .emit _ => True
  | .burn => ∃ place, e.ok (.send place) = false
  | _ => False

section Senders

variable {place : SendPlace} {dst : Endpoint} {packet : Option Bytes} {r : Node × FtError}

/-- What becomes of a packet: it is sent, or it is sealed and the system refuses to send it, or it fails before. -/
def Handles (Γ : Ctx) (e : Env) (n : Node) (dst : Endpoint) (p : Packet) (r : Node × FtError) : Prop :=
  (r.2 = .success ∧ ∃ data ch, (core n).Protects Γ p data ch ∧ core r.1 = (core n).emit dst data ch) ∨
  (r.2 ≠ .success ∧ (∃ place, e.ok (.send place) = false) ∧
    ∃ data ch, (core n).Protects Γ p data ch ∧ core r.1 = { core n with channel := ch }) ∨
  (r.2 ≠ .success ∧ core r.1 = core n)

theorem handles_sendPacket (ht : ∀ bs, packet = some bs → bs = (core n).packet p) :
    Handles Γ e n dst p (sendPacket Γ e place ((core n).protects p) n dst packet) := by
  cases packet with
  | none => exact .inr (.inr ⟨nofun, rfl⟩)
  | some bs =>
    obtain rfl := ht bs rfl
    simp only [sendPacket]
    cases hp : protectFor Γ e place ((core n).protects p) n ((core n).packet p) with
    | none => exact .inr (.inr ⟨nofun, rfl⟩)
    | some r =>
      obtain ⟨data, n'⟩ := r
      obtain ⟨ch, rfl, hch⟩ := protectFor_eq_some hp
      dsimp only
      by_cases hok : e.ok (.send place) = false
      · rw [if_pos hok]
        exact .inr (.inl ⟨nofun, ⟨place, hok⟩, data, ch, hch, rfl⟩)
      · rw [if_neg hok]
        exact .inl ⟨rfl, data, ch, hch, rfl⟩

/-- A packet that is not sent is sealed at most. -/
theorem Handles.success_or {P : Label → Prop} (h : Handles Γ e n dst p r) (hP : (∃ place, e.ok (.send place) = false) → P .burn) :
    (r.2 = .success ∧ ∃ data ch, (core n).Protects Γ p data ch ∧ core r.1 = (core n).emit dst data ch) ∨
      r.2 ≠ .success ∧ Performs Γ P 1 n r.1 := by
  rcases h with hs | ⟨hc, hok, data, ch, hch, heq⟩ | ⟨hc, heq⟩
  · exact .inl hs
  · refine .inr ⟨hc, ?_⟩
    rw [Performs, heq]
    exact .single (.burn _ p data ch hch) (hP hok) rfl
  · exact .inr ⟨hc, .of_eq heq⟩

/-- A packet that may be sent is a step at most. -/
theorem Handles.performs (h : Handles Γ e n dst p r) (hm : (core n).MaySend p) : Performs Γ (Sends e) 1 n r.1 := by
  rcases h.success_or (P := Sends e) id with ⟨-, data, ch, hch, heq⟩ | ⟨-, hf⟩
  · rw [Performs, heq]
    exact .single (.emit _ p dst data ch hm hch) trivial rfl
  · exact hf

/-- A sender counts as activity exactly when it sent. -/
theorem sendPacket_activity (Γ : Ctx) (e : Env) (place : SendPlace) (protect : Bool) (n : Node) (dst : Endpoint)
    (packet : Option Bytes) :
    let c := (sendPacket Γ e place protect n dst packet).1.connection
    c.lastReceive = n.connection.lastReceive ∧ (c.lastSend = n.connection.lastSend ∨ c.lastSend = e.now) := by
  unfold sendPacket
  split
  · exact ⟨rfl, .inl rfl⟩
  · split
    · exact ⟨rfl, .inl rfl⟩
    · rename_i hp
      obtain ⟨ch, rfl, -⟩ := protectFor_eq_some hp
      split
      · exact ⟨rfl, .inl rfl⟩
      · exact ⟨rfl, .inr rfl⟩

/-- A packet that is not of a key update is sealed if the connection is encrypted, in the epoch that the connection sends in. -/
theorem protects_eq (n : Node) (hp : p.isKeyUpdate = false) : (core n).protects p = n.connection.secureEnabled := by
  simp [protects, hp, core]

theorem packet_eq (n : Node) (hp : p.isKeyUpdate = false) :
    (core n).packet p = p.encode n.connection.id n.connection.nextPacket n.connection.sendEpoch := by
  rw [packet, protects_eq n hp]
  rfl

/-- A packet of a key update is sealed in the epoch of the send key. -/
theorem keyPacket_eq (n : Node) (hp : p.isKeyUpdate = true) :
    (core n).protects p = true ∧
      (core n).packet p = p.encode n.connection.id n.connection.nextPacket n.connection.secureChannel.sendKeyEpoch := by
  have hpr : (core n).protects p = true := by simp [protects, hp]
  exact ⟨hpr, by rw [packet, if_pos hpr]; rfl⟩

theorem handles_sendPacket_of_not_keyUpdate (hp : p.isKeyUpdate = false) (ht : ∀ bs, packet = some bs →
    p.encode n.connection.id n.connection.nextPacket n.connection.sendEpoch = bs) :
    Handles Γ e n dst p (sendPacket Γ e place n.connection.secureEnabled n dst packet) := by
  rw [← protects_eq n hp]
  exact handles_sendPacket fun bs h => (ht bs h).symm.trans (packet_eq n hp).symm

theorem handles_sendPacket_of_keyUpdate (hp : p.isKeyUpdate = true) (ht : ∀ bs, packet = some bs →
    p.encode n.connection.id n.connection.nextPacket n.connection.secureChannel.sendKeyEpoch = bs) :
    Handles Γ e n dst p (sendPacket Γ e place true n dst packet) := by
  rw [← (keyPacket_eq n hp).1]
  exact handles_sendPacket fun bs h => (ht bs h).symm.trans (keyPacket_eq n hp).2.symm

theorem performs_sendClose (rsn : CloseReason) (text : Bytes) : Performs Γ (Sends e) 1 n (sendClose Γ e n rsn text).1 := by
  refine (handles_sendPacket_of_not_keyUpdate (p := .close rsn ((text.takeWhile (· ≠ 0)).take 95)) rfl fun bs h => ?_).performs
    trivial
  unfold encodeClose at h
  dsimp only at h
  split at h
  · exact some.inj h
  · cases h

theorem performs_sendPathPacket {type : PacketType} (tok : Bytes) :
    Performs Γ (Sends e) 1 n (sendPathPacket Γ e n type dst tok).1 := by
  unfold sendPathPacket
  dsimp only
  cases henc : encodePath type n.connection.id n.connection.nextPacket n.connection.sendEpoch tok
      Γ.cfg.maximumDatagramSize.toNat with
  | none => exact .refl _
  | some bs =>
    obtain ⟨rfl, rfl | rfl⟩ := encodePath_eq_some henc
    · exact (handles_sendPacket_of_not_keyUpdate (p := .pathChallenge tok) rfl fun _ => some.inj).performs trivial
    · exact (handles_sendPacket_of_not_keyUpdate (p := .pathResponse tok) rfl fun _ => some.inj).performs trivial

theorem performs_sendFlowControl (credit : Nat) : Performs Γ (Sends e) 1 n (sendFlowControl Γ e n credit).1 := by
  have hs : Performs Γ (Sends e) 1 n (sendPacket Γ e .flowControl n.connection.secureEnabled n n.connection.remote
      (encodeFlowControl n.connection.id n.connection.nextPacket n.connection.sendEpoch (UInt64.ofNat credit)
        Γ.cfg.maximumDatagramSize.toNat)).1 := by
    refine (handles_sendPacket_of_not_keyUpdate (p := .flowControl (UInt64.ofNat credit)) rfl fun bs h => ?_).performs trivial
    exact some.inj (ite_none_left_eq_some.mp h).2
  unfold sendFlowControl
  dsimp only
  split
  · rename_i heq
    rw [heq] at hs
    exact hs
  · exact hs

theorem handles_sendKeyUpdateRequest (ep : UInt64) :
    Handles Γ e n n.connection.remote (.keyUpdate ep) (sendKeyUpdateRequest Γ e n ep) := by
  refine handles_sendPacket_of_keyUpdate rfl fun bs h => ?_
  exact some.inj (ite_none_left_eq_some.mp h).2

theorem handles_sendKeyUpdateAck (ep : UInt64) :
    Handles Γ e n n.connection.remote (.keyUpdateAck ep) (sendKeyUpdateAck Γ e n ep) := by
  refine handles_sendPacket_of_keyUpdate rfl fun bs h => ?_
  exact some.inj (ite_none_left_eq_some.mp h).2

/-- A handshake packet may leave. -/
def Greets : Label → Prop
  | .greet => True
  | _ => False

theorem performs_sendHandshake {type : PacketType} (ht : type.isHandshake = true) (payload : Except FtError Bytes) :
    Performs Γ Greets 0 n (sendHandshake Γ e place n type payload).1 := by
  unfold sendHandshake
  split
  · exact .refl _
  · split
    · exact .refl _
    · rename_i payload _ packet he
      split
      · exact .refl _
      · exact .single (.greet _ n.connection.remote type payload packet ht he) trivial rfl

end Senders

/-! ## Messages -/

/-- What a message passed that was not refused. -/
theorem refuseMessage_eq_none {cfg : TransportConfig} {c : ConnectionRecord} {size : Nat} (h : refuseMessage cfg c size opt = none) :
    opt.lane < 4 ∧ size ≤ cfg.maximumMessageSize.toNat ∧
      cfg.payloadCapacity ≠ 0 ∧ fragmentCount cfg.payloadCapacity size ≤ 255 := by
  unfold refuseMessage at h
  split at h
  · cases h
  split at h
  · cases h
  split at h
  · cases h
  split at h
  · cases h
  split at h
  · cases h
  split at h
  · cases h
  split at h
  · cases h
  rename_i hl hc hsz hp ht
  exact ⟨UInt8.not_le.1 hl, Nat.not_lt.1 hsz, hp, Nat.not_lt.1 ht⟩

theorem refuseMessage_ne_success (cfg : TransportConfig) (c : ConnectionRecord) (size : Nat) (opt : SendOptions) :
    refuseMessage cfg c size opt ≠ some .success := by
  unfold refuseMessage
  grind

/-- A message is queued, or the call fails and leaves the core as it was. -/
theorem sendConnectionMessage_cases {r : Node × FtError} (h : sendConnectionMessage Γ e n data opt = r) :
    (r.2 = .success ∧ ∃ seq, (isReliable opt.delivery = true → seq = (core n).cursor opt.channel) ∧
      core r.1 = (core n).enqueue Γ.cfg.payloadCapacity e.now opt seq data ∧
      Step Γ (core n) (.enqueue opt data) (core r.1)) ∨
    (r.2 ≠ .success ∧ core r.1 = core n) := by
  unfold sendConnectionMessage at h
  cases hcd : refuseMessage Γ.cfg n.connection data.length opt with
  | some code =>
    simp only [hcd] at h
    subst h
    exact .inr ⟨fun heq => refuseMessage_ne_success _ _ _ _ (hcd.trans (congrArg some heq)), rfl⟩
  | none => ?_
  obtain ⟨hl, hsz, hp, ht⟩ := refuseMessage_eq_none hcd
  cases hf : findChannelState (e.ok .channelState) n.connection.channels opt.channel with
  | none =>
    simp only [hcd, hf] at h
    subst h
    exact .inr ⟨nofun, rfl⟩
  | some channels => ?_
  simp only [hcd, hf] at h
  generalize he : (if isReliable opt.delivery = true then (channelState channels opt.channel).nextReliableSequence
    else (channelState channels opt.channel).latestUnreliableSequence + 1) = seq at h
  obtain ⟨hs, ha⟩ := findChannelState_eq_some hf
  -- the record of the channel that is found or added leaves every cursor where it was
  have hco : core (n.modify fun c => { c with channels := channels }) = core n := by
    simp only [core, Node.modify_connection, Node.modify_received, Node.modify_wire, hs]
  split at h
  · subst h
    exact .inr ⟨nofun, hco⟩
  split at h
  · subst h
    exact .inr ⟨nofun, hco⟩
  subst h
  have hc : isReliable opt.delivery = true → seq = (core n).cursor opt.channel := by
    intro hr
    rw [← he, if_pos hr, hs]
    rfl
  have hcr : (fun x => (channelState (if isReliable opt.delivery = true then
        setNextReliable opt.channel (seq + 1) channels else setLatestUnreliable opt.channel seq channels)
        x).nextReliableSequence) =
      if isReliable opt.delivery = true then Function.update (core n).cursor opt.channel (seq + 1)
      else (core n).cursor := by
    funext x
    split
    · rw [nextReliableSequence_setNextReliable ha]
      simp only [hs]
      rfl
    · rw [nextReliableSequence_setLatestUnreliable, hs]
      rfl
  refine .inl ⟨rfl, seq, hc, ?_⟩
  have heq := congrArg (fun cursor =>
    { (core n).enqueue Γ.cfg.payloadCapacity e.now opt seq data with cursor := cursor }) hcr
  refine ⟨heq, ?_⟩
  have hst : Step Γ (core n) (.enqueue opt data) ((core n).enqueue Γ.cfg.payloadCapacity e.now opt seq data) :=
    .enqueue _ e.now opt seq data hl hsz hp ht hc
  exact Eq.mpr (congrArg (Step Γ (core n) (.enqueue opt data)) heq) hst

/-! ## Closing -/

theorem performs_finishDraining (rsn : CloseReason) : Performs Γ (Sends e) 1 n (finishDraining Γ e n rsn).1 :=
  performs_sendClose n.connection.drainingReason n.connection.drainingDebugText

/-- What a close may do. -/
def Closes (e : Env) (n : Node) (abort : Bool) : Label → Prop
  | .emit _ => True
  | .burn => ∃ place, e.ok (.send place) = false
  | .abort queueBytes => abort = true ∧ n.connection.state ≠ .closed ∧ queueBytes = n.connection.statistics.queueBytes
  | _ => False

theorem Sends.closes {abort : Bool} {l : Label} (h : Sends e l) : Closes e n abort l := by
  cases l <;> first | exact h | exact h.elim

/-- Sending a packet leaves the queues alone. -/
theorem Sends.queueBytes_eq {k : Nat} (h : Performs Γ (Sends e) k n n') : (core n').queueBytes = (core n).queueBytes := by
  refine Does.invariant (I := fun c => c.queueBytes = (core n).queueBytes) (fun c l c' hs hl hc => ?_) h rfl
  cases hs <;> first | exact hl.elim | exact hc

theorem performs_abortConnection (rsn : CloseReason) (text : Bytes)
    (hs : n.connection.state ≠ .closed) : Performs Γ (Closes e n true) 1 n (abortConnection Γ e n rsn text).1 := by
  have hc := performs_sendClose (Γ := Γ) (e := e) (n := n) rsn text
  refine (hc.imp fun _ => Sends.closes).trans (m := 0) ?_
  have hq : (core (sendClose Γ e n rsn text).1).queueBytes = n.connection.statistics.queueBytes := Sends.queueBytes_eq hc
  exact .single (.abort _) ⟨rfl, hs, hq⟩ rfl

theorem performs_closeConnection (rsn : CloseReason) (text : Bytes) (abort : Bool) :
    Performs Γ (Closes e n abort) 1 n (closeConnection Γ e n rsn text abort).1 := by
  unfold closeConnection
  split
  · exact .refl _
  rename_i hs
  split
  · rename_i ha
    subst ha
    exact performs_abortConnection rsn text hs
  split
  · exact .refl _
  generalize hm : n.modify _ = m
  have hc : core n = core m := by
    rw [← hm]
    rfl
  dsimp only
  rw [Performs, hc]
  split
  · exact (performs_finishDraining rsn).imp fun _ => Sends.closes
  · exact .refl _

/-- An abort leaves the connection closed. -/
theorem closeConnection_abort_state (rsn : CloseReason) (text : Bytes) :
    (closeConnection Γ e n rsn text true).1.connection.state = .closed := by
  unfold closeConnection
  split
  · assumption
  · rfl

/-! ## Keys and limits -/

/-- What a key update request may do. -/
def Requests (e : Env) : Label → Prop
  | .request _ => True
  | .burn => ∃ place, e.ok (.send place) = false
  | _ => False

theorem performs_requestConnectionKeyUpdate (ep : UInt64) : Performs Γ (Requests e) 1 n (requestConnectionKeyUpdate Γ e n ep).1 := by
  unfold requestConnectionKeyUpdate
  dsimp only
  split
  · exact .refl _
  rename_i hs
  split
  · exact .refl _
  rename_i hp
  split
  · exact .refl _
  rename_i he
  simp only [not_or, Bool.not_eq_false, Bool.not_eq_true] at hs hp
  have hsn := handles_sendKeyUpdateRequest (Γ := Γ) (e := e) (n := n) ep
  generalize sendKeyUpdateRequest Γ e n ep = r at hsn ⊢
  obtain ⟨n', code⟩ := r
  rcases hsn.success_or (P := Requests e) id with ⟨rfl, data, ch, hch, heq⟩ | ⟨hc, hf⟩
  · have hcr : core (n'.modify fun c => { c with
        keyUpdatePending := true
        keyUpdateEpoch := ep
        keyUpdateSentAt := e.now }) =
        { (core n).emit n.connection.remote data ch with updatePending := true, updateEpoch := ep } := by
      rw [← heq]
      rfl
    rw [Performs, hcr]
    exact .single (.request _ _ ep data ch hs.1 hp.2.1 (UInt64.not_le.1 he) hch) trivial rfl
  · split
    · rename_i hsuc
      exact absurd (congrArg Prod.snd hsuc) hc
    · exact hf

/-- What a local key update may do. -/
def Rotates : Label → Prop
  | .rotate => True
  | _ => False

theorem performs_updateConnectionKeyEpoch (ep : UInt64) : Performs Γ Rotates 0 n (updateConnectionKeyEpoch Γ n ep).1 := by
  unfold updateConnectionKeyEpoch
  dsimp only
  split
  · exact .refl _
  split
  · exact .refl _
  split
  · exact .refl _
  · rename_i ch hch
    exact .single (.rotate _ ep ch hch) trivial rfl

/-- What configuring a lane does. -/
def Configures : Label → Prop
  | .configure => True
  | _ => False

theorem performs_configureConnectionLane (lane : UInt8) (w ban : UInt32) :
    Performs Γ Configures 0 n (configureConnectionLane n lane w ban).1 := by
  unfold configureConnectionLane
  split
  · exact .refl _
  · exact .single (.configure _ _) trivial rfl

theorem core_setConnectionQueueLimits (n : Node) (lim : UInt32) : core (setConnectionQueueLimits n lim).1 = core n := by
  unfold setConnectionQueueLimits
  split <;> rfl

end Libft.Networking
