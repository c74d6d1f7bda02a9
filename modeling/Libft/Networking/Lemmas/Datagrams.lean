import Libft.Networking.Lemmas.Processes

/-!
# What is on the wire

Every datagram that a connection has put on the wire is a handshake packet or a packet that was sent under a number, an epoch and, if
it was sealed, a key (`Dispatch`). Under an ideal backend a peer that opens it finds that packet and no other.
-/

namespace Libft.Networking

open Bytes List SecureChannel PacketType Packet
open Option (some isSome_iff_exists)

/-- What starts with a header starts with no header of another type. -/
theorem encodeHeader_inj {type type' : PacketType} {flag flag' : UInt8} {id id' : UInt64} {more more' : Bytes}
    (h : encodeHeader type flag id ++ more = encodeHeader type' flag' id' ++ more') : type = type' := by
  simp only [encodeHeader, cons_append, cons.injEq, true_and] at h
  have hr := congrArg ofByte? h.1
  rwa [ofByte?_toByte, ofByte?_toByte, some.injEq] at hr

/-! ## Datagrams -/

/-- A packet on its way: its number, its epoch, and the key it was sealed under, if it was sealed. -/
structure Dispatch where
  packet : Packet
  number : UInt64
  epoch : UInt64
  key : Option TrafficKey

namespace Dispatch

/-- The packet before it is sealed. -/
def plain (id : UInt64) (d : Dispatch) : Bytes := d.packet.encode id d.number d.epoch

/-- The part of a packet that is not encrypted. -/
def associatedData (id : UInt64) (d : Dispatch) : Bytes := d.packet.front id ++ (writeU64 d.number ++ writeU64 d.epoch)

/-- The part of a packet that is encrypted, when it is sealed. -/
def rest (B : CryptoBackend) (id : UInt64) (d : Dispatch) : Bytes :=
  match d.key with
  | none => d.packet.body
  | some key =>
    B.seal_ key.key (SecureChannel.prepareNonce key.initializationVector d.number) (d.associatedData id) d.packet.body

/-- The datagram of a packet. -/
def bytes (B : CryptoBackend) (id : UInt64) (d : Dispatch) : Bytes := d.associatedData id ++ d.rest B id

variable (B : CryptoBackend) (id : UInt64) (d : Dispatch)

theorem plain_eq : d.plain id = d.associatedData id ++ d.packet.body := by
  simp only [plain, encode_eq, associatedData, append_assoc]

theorem length_associatedData : (d.associatedData id).length = d.packet.type.associatedDataLength := by
  simp only [associatedData, length_append, length_front, length_writeU64]
  cases d.packet <;> rfl

theorem bytes_eq : ∃ more, d.bytes B id = encodeHeader d.packet.type d.packet.flag id ++ more := by
  obtain ⟨more, hf⟩ := d.packet.front_eq id
  exact ⟨more ++ (writeU64 d.number ++ (writeU64 d.epoch ++ d.rest B id)), by
    simp only [bytes, associatedData, hf, append_assoc]⟩

theorem readNumber_bytes :
    readU64 ((d.bytes B id).drop d.packet.type.packetNumberOffset) = some (d.number, writeU64 d.epoch ++ d.rest B id) := by
  simp only [bytes, associatedData, append_assoc]
  rw [drop_left' (d.packet.length_front id), readU64_write]

theorem take_bytes : (d.bytes B id).take d.packet.type.associatedDataLength = d.associatedData id :=
  take_left' (d.length_associatedData id)

theorem drop_bytes : (d.bytes B id).drop d.packet.type.associatedDataLength = d.rest B id :=
  drop_left' (d.length_associatedData id)

variable {B id d}

/-- Sealed datagrams that are equal carry the same number and body, in packets of the same type. -/
theorem bytes_inj (hB : B.Ideal) {d' : Dispatch} (h : d.bytes B id = d'.bytes B id) (hy : d.key.isSome = true)
    (hk' : d'.key.isSome = true) :
    d.packet.type = d'.packet.type ∧ d.number = d'.number ∧ d.packet.body = d'.packet.body := by
  obtain ⟨key, hy⟩ := isSome_iff_exists.1 hy
  obtain ⟨key', hk'⟩ := isSome_iff_exists.1 hk'
  have ht : d.packet.type = d'.packet.type := by
    obtain ⟨more, hmr⟩ := d.bytes_eq B id
    obtain ⟨more', hm'⟩ := d'.bytes_eq B id
    exact encodeHeader_inj (hmr.symm.trans (h.trans hm'))
  have hn := d.readNumber_bytes B id
  rw [h, ht, d'.readNumber_bytes B id, some.injEq, Prod.mk.injEq] at hn
  obtain ⟨hn, hr⟩ := hn
  have he := congrArg readU64 hr
  rw [readU64_write, readU64_write, some.injEq, Prod.mk.injEq] at he
  have hb := he.2
  simp only [rest, hy, hk'] at hb
  obtain ⟨hk, hnc, had⟩ := hB.seal_inj _ _ _ _ _ _ _ _ hb
  rw [hk, hnc, had] at hb
  -- both boxes are now sealed alike, so they open to the same body
  have ho := (hB.open_eq_some _ _ _ _ _).2 hb
  rw [(hB.open_eq_some _ _ _ _ _).2 rfl, some.injEq] at ho
  exact ⟨ht, hn.symm, ho.symm⟩

end Dispatch

/-! ## Opening a datagram of the peer -/

section Opening

variable {Γ : Ctx} {e : Env} {n : Node} {d : Dispatch} {id : UInt64} {type : PacketType} {flag : UInt8} {packet more : Bytes}

/-- A datagram that is long enough has the header it starts with. -/
theorem readHeader_append : readHeader (encodeHeader type flag id ++ more) =
    if (encodeHeader type flag id ++ more).length < type.minimumSize then none else some ⟨type, flag, id⟩ := by
  simp only [readHeader, encodeHeader, cons_append, ne_eq, not_true_eq_false, or_self, if_false, ofByte?_toByte,
    Option.bind_eq_bind, Option.bind_some, readU64_write]
  rfl

theorem readHeader_eq_some {hdr : Header} (h : readHeader (encodeHeader type flag id ++ more) = some hdr) :
    hdr = ⟨type, flag, id⟩ := by
  rw [readHeader_append] at h
  exact (some.inj (Option.ite_none_left_eq_some.mp h).2).symm

theorem readHeader_encodeHeader (hl : type.minimumSize ≤ (encodeHeader type flag id ++ more).length) :
    readHeader (encodeHeader type flag id ++ more) = some ⟨type, flag, id⟩ := by
  rw [readHeader_append, if_neg (Nat.not_lt.2 hl)]

/-- The header of a datagram that opens is that of its packet. -/
theorem Opens.header (h : Opens Γ e n (d.bytes Γ.crypto id) type flag packet) :
    type = d.packet.type ∧ flag = d.packet.flag := by
  obtain ⟨more, hbs⟩ := d.bytes_eq Γ.crypto id
  have hh := readHeader_eq_some (hbs ▸ h.1)
  exact ⟨congrArg Header.type hh, congrArg Header.flag hh⟩

/-- A datagram that opens is the packet that was sent. -/
theorem Opens.packet_eq (hB : Γ.crypto.Ideal) (hy : d.key.isSome = n.connection.secureEnabled)
    (h : Opens Γ e n (d.bytes Γ.crypto id) type flag packet) : packet = d.plain id := by
  obtain ⟨rfl, -⟩ := h.header
  obtain ⟨-, n', hop⟩ := h
  rw [Dispatch.plain_eq]
  rcases openDatagram_cases hop with ⟨hp, rfl, -⟩ | ⟨hs, nm, ep, -, -, p, ch, -, -, hch, rfl, -⟩
  · have hno : d.key = none := by
      rw [← Option.isNone_iff_eq_none, ← Option.not_isSome, hy, hp]
      rfl
    rw [Dispatch.bytes, Dispatch.rest, hno]
  · obtain ⟨key, hsm⟩ := isSome_iff_exists.1 (hy.trans hs)
    rw [Dispatch.take_bytes, Dispatch.drop_bytes, Dispatch.rest, hsm] at hch
    rw [Dispatch.take_bytes]
    -- the box was sealed under the key it opens under, so it opens to what was sealed
    have hb (key' : TrafficKey) (nonce : Bytes)
        (ho : Γ.crypto.open_ key'.key nonce (d.associatedData id) (Γ.crypto.seal_ key.key
          (prepareNonce key.initializationVector d.number) (d.associatedData id) d.packet.body) = some p) :
        p = d.packet.body := by
      obtain ⟨hk, hnc, -⟩ := hB.seal_inj _ _ _ _ _ _ _ _ ((hB.open_eq_some _ _ _ _ _).1 ho)
      rw [← hk, ← hnc, (hB.open_eq_some _ _ _ _ _).2 rfl] at ho
      exact (some.inj ho).symm
    rcases openAtEpoch_eq_some hch with ⟨-, -, ho, -⟩ | ⟨-, -, -, -, ho, -⟩
    · rw [hb _ _ ho]
    · rw [hb _ _ ho]

/-- A datagram sealed under the receive key opens, when its number is accepted and there is memory for it. -/
theorem openDatagram_of_receiveKey (hB : Γ.crypto.Ideal) (hs : n.connection.secureEnabled = true)
    (hi : n.connection.secureChannel.initialised = true) (hok : e.ok .open_ = true)
    (hk : d.key = some n.connection.secureChannel.receiveKey) (he : d.epoch = n.connection.secureChannel.receiveKeyEpoch)
    (ha : n.connection.secureChannel.received.acceptsPacketNumber d.number = true) :
    openDatagram Γ e n d.packet.type (d.bytes Γ.crypto id) = .ok (d.plain id, n.modify fun c => { c with
      secureChannel := { c.secureChannel with received := c.secureChannel.received.recordPacketNumber d.number } }) := by
  have hl : ¬(d.bytes Γ.crypto id).length < d.packet.type.associatedDataLength + tagSize := by
    rw [Dispatch.bytes, length_append, Dispatch.length_associatedData, Dispatch.rest, hk]
    exact Nat.not_lt.2 (Nat.add_le_add_left (hB.length_seal _ _ _ _) _)
  have ho := open_of_accepts (B := Γ.crypto) hi ha (d.associatedData id) (d.rest Γ.crypto id)
  rw [open_, Dispatch.rest, hk, (hB.open_eq_some _ _ _ _ _).2 rfl, Option.map_some] at ho
  have hh : n.connection.secureChannel.hasReceiveEpoch n.connection.secureChannel.receiveKeyEpoch = true :=
    (hasReceiveEpoch_iff _ _).2 ⟨hi, .inl rfl⟩
  unfold openDatagram
  simp only [hs, Bool.true_eq_false, if_false, hl, Dispatch.readNumber_bytes, Dispatch.take_bytes, Dispatch.drop_bytes,
    readU64_write, he, ne_eq, not_true_eq_false, false_and, hh, and_false, or_self, hok, Dispatch.rest, hk, ho,
    Dispatch.plain_eq]
  rfl

end Opening

/-! ## The wire of a connection -/

/-- The packet that a step puts on the wire, in terms of the core before it. -/
def Label.packet (c : Core) : Label → Option Packet
  | .emit p => some p
  | .transmit f => some (.frame f c.largest c.ranges)
  | .retransmit p => some (.frame p.frame c.largest c.ranges)
  | .request epoch => some (.keyUpdate epoch)
  | .answer _ epoch => some (.keyUpdateAck epoch)
  | _ => none

variable {Γ : Ctx} {c c' : Core} {l : Label}

namespace Core

variable {P : Dispatch → Prop}

/-- A packet that is sent next. -/
def dispatch (c : Core) (p : Packet) : Dispatch where
  packet := p
  number := c.nextPacket
  epoch := if c.protects p = true then c.channel.sendKeyEpoch else 0
  key := if c.protects p = true then some c.channel.sendKey else none

theorem Protects.bytes_eq {p : Packet} {data : Bytes} {ch : SecureChannel} (h : c.Protects Γ p data ch) :
    data = (c.dispatch p).bytes Γ.crypto c.id := by
  have hpl : c.packet p = (c.dispatch p).associatedData c.id ++ p.body := (c.dispatch p).plain_eq c.id
  by_cases hp : c.protects p = true
  · obtain ⟨-, rfl, -⟩ := h.sealed hp
    have hl : ((c.dispatch p).associatedData c.id).length = p.type.associatedDataLength := (c.dispatch p).length_associatedData c.id
    rw [hpl, take_left' hl, drop_left' hl]
    simp only [Dispatch.bytes, Dispatch.rest, dispatch, hp, if_true]
  · rw [Protects, if_neg hp] at h
    rw [h.1, hpl]
    simp only [Dispatch.bytes, Dispatch.rest, dispatch, hp]
    rfl

/-- Every datagram on the wire is a handshake packet, or a packet of a kind that was sealed if the connection seals such packets. -/
def Wired (B : CryptoBackend) (c : Core) (P : Dispatch → Prop) : Prop :=
  ∀ entry ∈ c.wire, (∃ type more, type.isHandshake = true ∧ entry.2 = encodeHeader type 0 c.id ++ more) ∨
    ∃ d : Dispatch, P d ∧ d.key.isSome = c.protects d.packet ∧ entry.2 = d.bytes B c.id

theorem Wired.mono {B : CryptoBackend} {Q : Dispatch → Prop} (h : c.Wired B P) (hPQ : ∀ d, P d → Q d) : c.Wired B Q :=
  fun ent he => (h ent he).imp_right fun ⟨d, hd, hk, hbs⟩ => ⟨d, hPQ d hd, hk, hbs⟩

/-- A step puts the packet it is labelled with on the wire, and leaves the rest of the wire alone. -/
theorem Wired.step (h : c.Wired Γ.crypto P) (hst : Step Γ c l c')
    (hn : ∀ p, l.packet c = some p → P (c.dispatch p)) : c'.Wired Γ.crypto P := by
  have hem {p : Packet} {ds : Endpoint} {data : Bytes} {ch : SecureChannel} (ch' : SecureChannel) (hp : P (c.dispatch p))
      (hd : c.Protects Γ p data ch) : (c.emit ds data ch').Wired Γ.crypto P := by
    intro ent hen
    rcases mem_append.1 hen with ho | hl
    · exact h ent ho
    · refine .inr ⟨c.dispatch p, hp, ?_, ?_⟩
      · show (if c.protects p = true then some c.channel.sendKey else none).isSome = c.protects p
        cases c.protects p <;> rfl
      · rw [mem_singleton.1 hl]
        exact hd.bytes_eq
  cases hst with
  | emit p ds data ch hp hd => exact hem ch (hn p rfl) hd
  | greet ds type payload data ht hd =>
    intro ent hen
    rcases mem_append.1 hen with ho | hl
    · exact h ent ho
    · refine .inl ⟨type, writeU16 (UInt16.ofNat payload.length) ++ payload, ht, ?_⟩
      rw [mem_singleton.1 hl, ← some.inj (Option.ite_none_left_eq_some.mp hd).2]
  | transmit _ _ _ _ _ _ ch _ _ hd | retransmit _ _ _ _ _ ch _ _ hd | request _ _ _ ch _ _ _ hd =>
    exact hem ch (hn _ rfl) hd
  | answer ds ep data ch ch' hs he hd hr => exact hem ch' (hn _ rfl) hd
  | _ => exact h

/-- A datagram of the wire that a peer opens is a packet of the kind, and opens to what was sent. A peer that is not encrypted is
given sealed key updates as they are. -/
theorem Wired.opens {e : Env} {n : Node} {ent : Endpoint × Bytes} {type : PacketType}
    {flag : UInt8} {packet : Bytes} (h : c.Wired Γ.crypto P) (hB : Γ.crypto.Ideal) (hs : c.secure = n.connection.secureEnabled)
    (he : ent ∈ c.wire) (ho : Opens Γ e n ent.2 type flag packet) (ht : type.isHandshake = false)
    (hk : c.secure = true ∨ type ≠ .keyUpdate ∧ type ≠ .keyUpdateAck) :
    ∃ d, P d ∧ d.packet.type = type ∧ d.packet.flag = flag ∧ packet = d.plain c.id := by
  rcases h ent he with ⟨hsk, more, hh, hbs⟩ | ⟨d, hd, hsm, hbs⟩
  · rw [hbs] at ho
    have hhdr := congrArg Header.type (readHeader_eq_some ho.1)
    have ht' : type = hsk := hhdr
    rw [← ht', ht] at hh
    cases hh
  · rw [hbs] at ho
    obtain ⟨rfl, rfl⟩ := ho.header
    refine ⟨d, hd, rfl, rfl, ho.packet_eq hB ?_⟩
    rw [hsm, ← hs, protects]
    rcases hk with hk | ⟨hr, ha⟩
    · simp [hk]
    · cases hpkt : d.packet with
      | keyUpdate next => exact absurd (by rw [hpkt]; rfl) hr
      | keyUpdateAck a => exact absurd (by rw [hpkt]; rfl) ha
      | _ => simp [isKeyUpdate]

end Core

/-- What no step changes: the id, and whether the connection is encrypted. -/
theorem Step.id_eq (h : Step Γ c l c') : c'.id = c.id := by
  cases h <;> rfl

theorem Step.secure_eq (h : Step Γ c l c') : c'.secure = c.secure := by
  cases h <;> rfl

end Libft.Networking
