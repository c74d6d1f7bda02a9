import Mathlib.Data.Bool.Count
import Libft.Networking.Pair

/-!
# Pieces of messages

A queued message is cut into frames, a frame is read back as the piece of the message it carries, and a record that has stored pieces of
a message agrees with the message wherever it has received something. A record that is complete is the message.
-/

namespace Libft.Networking

open Bytes List Option Nat Prod

/-! ## Frames of a message -/

/-- What a frame says of the message it is a part of. -/
structure Piece where
  messageId : UInt64
  channel : UInt32
  sequence : UInt64
  totalSize : UInt32
  offset : UInt32
  fragmentCount : UInt8
  payload : Bytes

/-- The piece of a frame that is to be sent. -/
def OutgoingFrame.piece (f : OutgoingFrame) : Piece :=
  ⟨f.messageId, f.channel, f.sequence, f.totalSize, f.offset, f.fragmentCount, f.payload⟩

/-- The piece of a frame that was read. -/
def FrameBody.piece (f : FrameBody) : Piece :=
  ⟨f.messageId, f.channel, f.sequence, f.totalSize, f.fragmentOffset, f.fragmentCount, f.payload⟩

/-- A piece of a message that is cut at a capacity. -/
structure Carries (cap : Nat) (m : QueuedMessage) (dlv : Delivery) (x : Piece) : Prop where
  delivery_eq : dlv = m.options.delivery
  messageId : x.messageId = m.messageId
  channel : x.channel = m.options.channel
  sequence : isReliable m.options.delivery = true → x.sequence = m.sequence
  totalSize : x.totalSize.toNat = m.data.length
  fragmentCount : x.fragmentCount = UInt8.ofNat (Networking.fragmentCount cap m.data.length)
  inside : x.offset.toNat + x.payload.length ≤ m.data.length
  payload : x.payload = (m.data.drop x.offset.toNat).take x.payload.length
  whole : x.fragmentCount = 1 → x.payload = m.data

variable {cap size : Nat} {m : QueuedMessage} {dlv : Delivery} {f : FrameBody} {r : ReassemblyRecord} {j : Nat} {tl : Bytes}
  {top : UInt64} {rs : List AckRange}

/-- Where the frame with an index starts. -/
theorem index_mul_le (hc : cap ≠ 0) (h : j < fragmentCount cap size) : j * cap ≤ size := by
  rcases Nat.eq_zero_or_pos j with rfl | hpos
  · simp
  · have hlt : j < (size + cap - 1) / cap := by
      unfold fragmentCount at h
      omega
    have := (le_div_iff_mul_le (pos_of_ne_zero hc)).1 hlt
    rw [succ_mul] at this
    omega

/-- A message that is cut into one frame fits it. -/
theorem size_le_of_fragmentCount_eq_one (hc : cap ≠ 0) (h : fragmentCount cap size = 1) : size ≤ cap := by
  have hle : (size + cap - 1) / cap ≤ 1 := by
    unfold fragmentCount at h
    omega
  have := lt_of_lt_of_le (lt_mul_div_succ (size + cap - 1) (pos_of_ne_zero hc))
    (Nat.mul_le_mul_left cap (Nat.add_le_add_right hle 1))
  omega

/-- The frames of a queued message carry it. -/
theorem carries_fragment {seq now : UInt64} (hc : cap ≠ 0)
    (hsz : m.data.length < 2 ^ 32) (ht : fragmentCount cap m.data.length ≤ 255)
    (hi : j < fragmentCount cap m.data.length)
    (hq : isReliable m.options.delivery = true → seq = m.sequence) :
    Carries cap m m.options.delivery (fragment cap m.options m.messageId seq now m.data j).piece := by
  have hs := index_mul_le hc hi
  have ho : (UInt32.ofNat (j * cap)).toNat = j * cap := UInt32.toNat_ofNat_of_lt' (lt_of_le_of_lt hs hsz)
  refine ⟨rfl, rfl, rfl, hq, UInt32.toNat_ofNat_of_lt' hsz, rfl, ?_, ?_, fun he => ?_⟩
  · show (UInt32.ofNat (j * cap)).toNat + ((m.data.drop (j * cap)).take cap).length ≤ m.data.length
    rw [ho, length_take, length_drop]
    omega
  · show (m.data.drop (j * cap)).take cap =
      (m.data.drop (UInt32.ofNat (j * cap)).toNat).take ((m.data.drop (j * cap)).take cap).length
    rw [ho, length_take, ← take_take, take_length]
  · have ho' : fragmentCount cap m.data.length = 1 := by
      have hb := congrArg UInt8.toNat he
      rwa [show (fragment cap m.options m.messageId seq now m.data j).piece.fragmentCount =
        UInt8.ofNat (fragmentCount cap m.data.length) from rfl,
        UInt8.toNat_ofNat_of_lt' (lt_of_le_of_lt ht (by decide))] at hb
    obtain rfl : j = 0 := by omega
    show (m.data.drop (0 * cap)).take cap = m.data
    rw [zero_mul, drop_zero, take_of_length_le (size_le_of_fragmentCount_eq_one hc ho')]

/-! ## Reading a frame -/

theorem readU16_rest {data : Bytes} {n : UInt16} (h : readU16 data = some (n, tl)) : tl = data.drop 2 := by
  obtain ⟨⟨v, tl'⟩, hr, heq⟩ := map_eq_some_iff.1 h
  rw [← (mk.inj heq).2]
  exact read_eq_some hr

/-- Slots that are read leave what follows them, whatever they say. -/
theorem readAckDeltas_rest {ss : Nat} : ∀ {data tl : Bytes} {deltas : List (UInt16 × UInt16)},
    readAckDeltas ss data = some (deltas, tl) → tl = data.drop (4 * ss) := by
  induction ss with
  | zero =>
    intro data tl deltas h
    simp only [readAckDeltas, some.injEq, mk.injEq] at h
    simp [h.2]
  | succ ss ih =>
    intro data tl deltas h
    unfold readAckDeltas at h
    obtain ⟨⟨start, data1⟩, hs, h⟩ := bind_eq_some_iff.1 h
    obtain ⟨⟨end_, data2⟩, he, h⟩ := bind_eq_some_iff.1 h
    dsimp only at h
    split at h
    · cases h
    obtain ⟨⟨d', data3⟩, hsl, h⟩ := bind_eq_some_iff.1 h
    obtain rfl : data3 = tl := (mk.inj (some.inj h)).2
    rw [ih hsl, readU16_rest he, readU16_rest hs, drop_drop, drop_drop]
    congr 1
    omega

theorem length_encodeAckRanges (top : UInt64) (rs : List AckRange) : (encodeAckRanges top rs).length = 17 := by
  have hl (dl : List (UInt16 × UInt16)) :
      (dl.flatMap fun delta => writeU16 delta.1 ++ writeU16 delta.2).length = 4 * dl.length := by
    induction dl with
    | nil => rfl
    | cons d dl ih =>
      rw [flatMap_cons, length_append, ih]
      simp only [length_append, length_writeU16, length_cons]
      omega
  rw [encodeAckRanges, length_cons, hl]
  simp [ackDeltas, ackRangeLimit]

/-- An acknowledgement block that is read leaves what follows it, whatever it says. -/
theorem readAckRanges_rest {more : Bytes} {deltas : List (UInt16 × UInt16)}
    (h : readAckRanges (encodeAckRanges top rs ++ more) = some (deltas, tl)) : tl = more := by
  have hl := length_encodeAckRanges top rs
  rw [encodeAckRanges] at h hl
  rw [length_cons] at hl
  unfold readAckRanges at h
  rw [cons_append, readU8_cons_bind] at h
  dsimp only at h
  split at h
  · cases h
  obtain ⟨⟨d', data⟩, hs, h⟩ := bind_eq_some_iff.1 h
  obtain rfl : data = tl := (mk.inj (some.inj h)).2
  rw [readAckDeltas_rest hs]
  exact drop_left' (succ.inj hl)

/-- A frame that is read is the frame that was written, with its number and the largest number it acknowledges, whatever it says of the
ranges. -/
theorem readFrame_eq_some {frame : OutgoingFrame} {id n ep : UInt64}
    (h : readFrame (framePacket frame id n ep top rs) = some f) (hs : frame.payload.length ≤ 65535) :
    f.piece = frame.piece ∧ f.packetNumber = n ∧ f.lane = frame.lane := by
  simp only [↓readU64_write_bind, readFrame, framePacket, drop_encodeHeader] at h
  obtain ⟨⟨d, tl⟩, hr, h⟩ := Option.bind_eq_some_iff.1 h
  obtain rfl := readAckRanges_rest hr
  simp only [↓readU64_write_bind, ↓readU32_write_bind, ↓readU16_write_bind, ↓readU8_cons_bind, Option.pure_def, Option.some.injEq] at h
  have hp : (UInt16.ofNat frame.payload.length).toNat = frame.payload.length := UInt16.toNat_ofNat_of_lt' (lt_succ_of_le hs)
  rw [← h]
  refine ⟨?_, rfl, rfl⟩
  simp only [FrameBody.piece, FrameBody.payload, OutgoingFrame.piece, hp, take_length]

/-- A frame that a connection reads from its peer is one that the peer sent. -/
theorem Core.Wired.frame {Γ : Ctx} {e : Env} {n : Node} {c : Core} {P : Dispatch → Prop} {ent : Endpoint × Bytes}
    {src : Endpoint} (h : c.Wired Γ.crypto P) (hB : Γ.crypto.Ideal)
    (hs : c.secure = n.connection.secureEnabled) (he : ent ∈ c.wire)
    (hsz : ∀ d frame top rs, P d → d.packet = .frame frame top rs → frame.payload.length ≤ 65535)
    (hf : FrameOf Γ e n src ent.2 dlv f) :
    ∃ d frame top rs, P d ∧ d.packet = .frame frame top rs ∧ frame.delivery = dlv ∧
      f.piece = frame.piece ∧ f.packetNumber = d.number ∧
      readFrame (framePacket frame c.id d.number d.epoch top rs) = some f := by
  obtain ⟨flag, pkt, ho, hr, hdl⟩ := hf.opens
  obtain ⟨d, hd, ht, hfl, rfl⟩ := h.opens hB hs he ho rfl (.inr ⟨nofun, nofun⟩)
  cases hpkt : d.packet with
  | frame frame top rs =>
    rw [hpkt] at hfl
    rw [← hfl, Packet.flag, Delivery.ofByte?_toByte] at hdl
    rw [Dispatch.plain, hpkt] at hr
    obtain ⟨hp, hn, -⟩ := readFrame_eq_some hr (hsz d frame top rs hd hpkt)
    exact ⟨d, frame, top, rs, hd, hpkt, some.inj hdl, hp, hn, hr⟩
  | _ =>
    rw [hpkt] at ht
    cases ht

/-! ## Overwriting -/

section Overwrite

variable {α : Type} {l xs : List α} {offset : Nat}

theorem length_overwrite (h : offset + xs.length ≤ l.length) : (overwrite l offset xs).length = l.length := by
  simp only [overwrite, length_append, length_take, length_drop]
  omega

/-- Inside the run stand the new elements, outside the old ones. -/
theorem getElem?_overwrite (h : offset + xs.length ≤ l.length) (i : Nat) :
    (overwrite l offset xs)[i]? = if offset ≤ i ∧ i < offset + xs.length then xs[i - offset]? else l[i]? := by
  have ht : (l.take offset).length = offset := by
    rw [length_take]
    omega
  unfold overwrite
  rcases lt_or_ge i offset with hb | hf
  · rw [if_neg (by omega), getElem?_append_left (by omega), getElem?_take_of_lt hb]
  rw [getElem?_append_right (by omega), ht]
  rcases lt_or_ge i (offset + xs.length) with hin | ha
  · rw [if_pos ⟨hf, hin⟩, getElem?_append_left (by omega)]
  · rw [if_neg (by omega), getElem?_append_right (by omega), getElem?_drop]
    congr 1
    omega

end Overwrite

/-- The marks after a run was marked: as many more as were missing in it. -/
theorem count_overwrite {marks : List Bool} {offset : Nat} (h : offset + size ≤ marks.length) :
    (overwrite marks offset (replicate size true)).count true =
      marks.count true + ((marks.drop offset).take size).count false := by
  have hs : marks = marks.take offset ++ ((marks.drop offset).take size ++ marks.drop (offset + size)) := by
    rw [← drop_drop, take_append_drop, take_append_drop]
  have hm : ((marks.drop offset).take size).count true + ((marks.drop offset).take size).count false = size := by
    rw [count_true_add_count_false, length_take, length_drop]
    omega
  have hc := congrArg (count true) hs
  simp only [count_append] at hc
  simp only [overwrite, count_append, length_replicate, count_replicate_self]
  omega

/-! ## Records of a message -/

/-- A record of a message: it agrees with the message wherever it has received something. -/
structure Reassembles (cap : Nat) (m : QueuedMessage) (r : ReassemblyRecord) : Prop where
  delivery_eq : r.delivery = m.options.delivery
  messageId : r.messageId = m.messageId
  channel : r.channel = m.options.channel
  sequence : isReliable m.options.delivery = true → r.sequence = m.sequence
  totalSize : r.totalSize.toNat = m.data.length
  fragmentCount : r.fragmentCount = UInt8.ofNat (Networking.fragmentCount cap m.data.length)
  payload_length : r.payload.length = m.data.length
  received_length : r.received.length = m.data.length
  count : r.receivedCount = r.received.count true
  agree : ∀ i : Nat, r.received[i]? = some true → r.payload[i]? = m.data[i]?

/-- The record that a piece opens is one of its message. -/
theorem Carries.reassembles (h : Carries cap m dlv f.piece) (cfg : TransportConfig) (now : UInt64) :
    Reassembles cap m (ReassemblyRecord.ofFrame cfg now dlv f) where
  __ := h
  payload_length := length_replicate.trans h.totalSize
  received_length := length_replicate.trans h.totalSize
  count := by simp [ReassemblyRecord.ofFrame, count_replicate]
  agree i hi := by
    have hmr : true = false := eq_of_mem_replicate (mem_of_getElem? hi)
    cases hmr

/-- A record of a message that stores a piece of it is one still. -/
theorem Reassembles.store (h : Reassembles cap m r) (hf : Carries cap m dlv f.piece) :
    Reassembles cap m (r.store f.fragmentOffset.toNat f.payload) := by
  have hs : f.fragmentOffset.toNat + f.payload.length ≤ m.data.length := hf.inside
  have hmr : f.fragmentOffset.toNat + (replicate f.payload.length true).length ≤ r.received.length := by
    rw [length_replicate, h.received_length]
    exact hs
  have hbs : f.fragmentOffset.toNat + f.payload.length ≤ r.payload.length := h.payload_length ▸ hs
  refine ⟨h.delivery_eq, h.messageId, h.channel, h.sequence, h.totalSize, h.fragmentCount, ?_, ?_, ?_, fun i hi => ?_⟩
  · exact (length_overwrite hbs).trans h.payload_length
  · exact (length_overwrite hmr).trans h.received_length
  · show r.receivedCount + _ = _
    rw [h.count]
    exact (count_overwrite (by simpa using hmr)).symm
  · simp only [ReassemblyRecord.store, getElem?_overwrite hmr, getElem?_overwrite hbs, length_replicate] at hi ⊢
    split
    · -- inside the run the payload is that of the piece, which is that of the message
      rename_i hr
      have hp : f.payload = (m.data.drop f.fragmentOffset.toNat).take f.payload.length := hf.payload
      rw [hp, getElem?_take_of_lt (by omega), getElem?_drop]
      congr 1
      omega
    · rename_i hr
      rw [if_neg hr] at hi
      exact h.agree i hi

/-- A record that has received as much as the message has is the message. -/
theorem Reassembles.payload_eq (h : Reassembles cap m r) (hc : r.receivedCount = r.totalSize.toNat) : r.payload = m.data := by
  have ha : ∀ b ∈ r.received, true = b := by
    rw [← count_eq_length, ← h.count, hc, h.totalSize, h.received_length]
  apply ext_getElem?
  intro i
  rcases lt_or_ge i m.data.length with hlt | hge
  · have hi : i < r.received.length := h.received_length ▸ hlt
    apply h.agree i
    rw [getElem?_eq_getElem hi, ← ha _ (getElem_mem hi)]
  · rw [getElem?_eq_none (h.payload_length ▸ hge), getElem?_eq_none hge]

/-! ## Messages -/

/-- A received message is a queued one. -/
structure IsOf (m : QueuedMessage) (M : ReceivedMessage) : Prop where
  delivery_eq : M.delivery = m.options.delivery
  channel : M.channel = m.options.channel
  sequence : isReliable m.options.delivery = true → M.sequence = m.sequence
  payload : M.payload = m.data

theorem Carries.isOf (h : Carries cap m dlv f.piece) (hc : f.fragmentCount = 1) (id : UInt64) :
    IsOf m (f.message dlv id) :=
  { h with payload := h.whole hc }

theorem Reassembles.isOf (h : Reassembles cap m r) (hc : r.receivedCount = r.totalSize.toNat) (id : UInt64) : IsOf m (r.message id) :=
  { h with payload := h.payload_eq hc }

end Libft.Networking
