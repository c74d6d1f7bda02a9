import Libft.Networking.Lemmas.Origins

/-!
# The size of a datagram

A frame is cut to fill a datagram before it is sealed, and its size is checked before it is sealed; sealing adds the tag. So the
datagrams of an encrypted connection exceed the configured size, unless its messages leave room for the tag.
-/

namespace Libft.Networking

open Bytes List Dispatch Header Option

/-- A backend whose boxes are the plaintext and a tag long. -/
def CryptoBackend.Tagged (B : CryptoBackend) : Prop :=
  ∀ key nonce ad plaintext, (B.seal_ key nonce ad plaintext).length = plaintext.length + tagSize

/-- What a connection adds to the payload of a frame. -/
def overhead (secure : Bool) : Nat := headerSize + frameHeaderSize + if secure = true then tagSize else 0

/-- The datagram of a frame: its length does not depend on the acknowledgement that rides on it. -/
theorem Dispatch.length_frame {B : CryptoBackend} (hB : B.Tagged) {d : Dispatch} {frame : OutgoingFrame} {top : UInt64}
    {rs : List AckRange} (h : d.packet = .frame frame top rs) (id : UInt64) :
    (d.bytes B id).length = frame.payload.length + overhead d.key.isSome := by
  have hb : d.packet.body.length = frame.payload.length + 49 := by
    rw [h]
    simp only [Packet.body, length_append, length_cons, length_writeU64, length_writeU32, length_writeU16, length_encodeAckRanges]
    omega
  have hf : (d.associatedData id).length = 36 := by
    rw [d.length_associatedData id, h]
    rfl
  rw [bytes, length_append, hf]
  unfold rest
  cases d.key with
  | none =>
    simp only [hb, overhead, isSome_none, Bool.false_eq_true, if_false, headerSize, frameHeaderSize, ackRangeLimit]
    omega
  | some key =>
    simp only [hB _ _ _ _, hb, overhead, isSome_some, if_true, headerSize, frameHeaderSize, ackRangeLimit, tagSize]
    omega

/-! ## The frames of a connection -/

/-- A frame that waits in a lane, or for its acknowledgement. -/
def Core.HasFrame (c : Core) (frame : OutgoingFrame) : Prop :=
  (∃ lane, frame ∈ c.pending lane) ∨ ∃ p ∈ c.sent, p.frame = frame

section Frames

variable {Γ : Ctx} {c c' : Core} {l : Label} {frame : OutgoingFrame} {opt : SendOptions} {mi seq now : UInt64}
  {data : Bytes}

/-- A frame that a connection has after a step it had before, or it belongs to the message that the step queued. -/
theorem Step.hasFrame (hst : Step Γ c l c') (h : c'.HasFrame frame) :
    c.HasFrame frame ∨ ∃ opt data seq now, l = .enqueue opt data ∧
      frame ∈ fragments Γ.cfg.payloadCapacity opt c.nextMessage seq now data := by
  cases hst with
  | transmit d now lane f tl data ch hln =>
    refine .inl ?_
    rcases h with ⟨lane', hf⟩ | ⟨p, hp, rfl⟩
    · exact .inl ⟨lane', mem_of_mem_update hln hf⟩
    · rcases mem_sent_transmit hp with ho | ⟨-, rfl⟩
      · exact .inr ⟨p, ho, rfl⟩
      · exact .inl ⟨lane, hln ▸ mem_cons_self⟩
  | retransmit d now i p data ch hs =>
    refine .inl (h.imp_right ?_)
    rintro ⟨p', hp', rfl⟩
    rcases mem_or_eq_of_mem_set hp' with ho | rfl
    · exact ⟨p', ho, rfl⟩
    · exact ⟨p, mem_of_getElem? hs, rfl⟩
  | expireSent i p hp =>
    refine .inl (h.imp_right ?_)
    rintro ⟨p', hp', rfl⟩
    exact ⟨p', mem_of_mem_eraseIdx hp', rfl⟩
  | drop _ _ _ hln | forget _ _ _ hln =>
    exact .inl (h.imp_left fun ⟨lane', hf⟩ => ⟨lane', mem_of_mem_update hln hf⟩)
  | abort =>
    rcases h with ⟨lane, hf⟩ | ⟨p, hp, -⟩
    · cases hf
    · cases hp
  | enqueue now opt seq data =>
    rcases h with ⟨lane, hf⟩ | hs
    · by_cases hl : lane = laneIndex opt.lane
      · subst hl
        rcases mem_append.1 (by simpa [Core.enqueue] using hf) with ho | hnew
        · exact .inl (.inl ⟨_, ho⟩)
        · exact .inr ⟨opt, data, seq, now, rfl, hnew⟩
      · exact .inl (.inl ⟨lane, by simpa [Core.enqueue, hl] using hf⟩)
    · exact .inl (.inr hs)
  | acknowledge lr r =>
    refine .inl (h.imp_right ?_)
    rintro ⟨p, hp, rfl⟩
    exact ⟨p, mem_of_mem_filter hp, rfl⟩
  | _ => exact .inl h

/-- A frame that a step sends is one that the connection has. -/
theorem Step.hasFrame_of_packet (hs : Step Γ c l c') {top : UInt64} {rs : List AckRange}
    (hp : l.packet c = some (.frame frame top rs)) : c.HasFrame frame := by
  cases hs with
  | emit p d data ch hm =>
    cases hp
    exact hm.elim
  | transmit d now lane f tl data ch hl =>
    cases hp
    exact .inl ⟨lane, hl ▸ mem_cons_self⟩
  | retransmit d now i p data ch hsn =>
    cases hp
    exact .inr ⟨p, mem_of_getElem? hsn, rfl⟩
  | _ => cases hp

/-- The payload of a frame is no longer than a datagram has room for, nor than its message. -/
theorem length_payload_le {cap : Nat} (h : frame ∈ fragments cap opt mi seq now data) :
    frame.payload.length ≤ cap ∧ frame.payload.length ≤ data.length := by
  obtain ⟨i, -, rfl⟩ := mem_map.1 h
  simp only [fragment, length_take, length_drop]
  omega

/-- A payload that leaves room in a datagram for what the connection adds to it. -/
def Fits (cfg : TransportConfig) (secure : Bool) (payload : Bytes) : Prop :=
  payload.length + overhead secure ≤ cfg.maximumDatagramSize.toNat

/-- The frames of a message fit, if the message does, and in any case where nothing is sealed. -/
theorem fits_of_mem_fragments {cfg : TransportConfig} {secure : Bool} (h : frame ∈ fragments cfg.payloadCapacity opt mi seq now data)
    (hd : secure = true → Fits cfg true data) : Fits cfg secure frame.payload := by
  obtain ⟨hc, hl⟩ := length_payload_le h
  cases secure with
  | false =>
    have hok := cfg.datagramSize_ok
    simp only [Fits, overhead, Bool.false_eq_true, if_false]
    simp only [TransportConfig.payloadCapacity] at hc
    omega
  | true => exact (Nat.add_le_add_right hl _).trans (hd rfl)

/-- The frames that a connection has, and those it has put on the wire, fit. -/
structure Core.FramesFit (Γ : Ctx) (c : Core) : Prop where
  held : ∀ frame, c.HasFrame frame → Fits Γ.cfg c.secure frame.payload
  wired : c.Wired Γ.crypto fun d =>
    ∀ frame largest ranges, d.packet = .frame frame largest ranges → Fits Γ.cfg c.secure frame.payload

theorem Core.FramesFit.step (h : c.FramesFit Γ) (hst : Step Γ c l c')
    (he : ∀ opt data, l = .enqueue opt data → c.secure = true → Fits Γ.cfg true data) : c'.FramesFit Γ := by
  have hs := hst.secure_eq
  constructor
  · intro frame hf
    rw [hs]
    rcases hst.hasFrame hf with ho | ⟨opt, data, seq, now, rfl, hn⟩
    · exact h.held frame ho
    · exact fits_of_mem_fragments hn (he opt data rfl)
  · rw [hs]
    refine h.wired.step hst fun p hp frame lr r ht => ?_
    obtain rfl : p = .frame frame lr r := ht
    exact h.held frame (hst.hasFrame_of_packet hp)

/-- A datagram that says it is a frame is as long as a frame that fits. -/
theorem Core.FramesFit.length_le (h : c.FramesFit Γ) (hB : Γ.crypto.Tagged) {ent : Endpoint × Bytes} (he : ent ∈ c.wire)
    (ht : (readHeader ent.2).map type = some .frame) : ent.2.length ≤ Γ.cfg.maximumDatagramSize.toNat := by
  obtain ⟨hdr, hr, ht⟩ := map_eq_some_iff.1 ht
  rcases h.wired ent he with ⟨type, more, hh, hbs⟩ | ⟨d, hd, hk, hbs⟩
  · rw [hbs] at hr
    rw [readHeader_eq_some hr] at ht
    rw [show type = .frame from ht] at hh
    cases hh
  · obtain ⟨more, hmr⟩ := d.bytes_eq Γ.crypto c.id
    rw [hbs, hmr] at hr
    rw [readHeader_eq_some hr] at ht
    cases hpkt : d.packet with
    | frame frame lr r =>
      have hp : c.protects d.packet = c.secure := by simp [Core.protects, hpkt, Packet.isKeyUpdate]
      rw [hbs, length_frame hB hpkt, hk, hp]
      exact hd frame lr r hpkt
    | _ =>
      rw [hpkt] at ht
      cases ht

end Frames

/-! ## Runs -/

/-- A message that an encrypted connection accepts leaves room for the tag. -/
def LeavesRoom (Γ : Ctx) (n : Node) (i : Input) : Prop :=
  match i.call with
  | .send data opt => n.connection.secureEnabled = true → (sendConnectionMessage Γ i.env n data opt).2 = .success →
      Fits Γ.cfg true data
  | _ => True

/-- A call keeps the frames of a connection fitting, if its message leaves room. -/
theorem framesFit_step {Γ : Ctx} {n : Node} {i : Input} (h : (core n).FramesFit Γ) (hr : LeavesRoom Γ n i) :
    (core (step Γ n i)).FramesFit Γ := by
  have hp := performs_step Γ n i
  obtain ⟨call, e⟩ := i
  cases call with
  | send data opt =>
    rcases sendConnectionMessage_cases (rfl : sendConnectionMessage Γ e n data opt = _) with
      ⟨ha, -, -, -, hst⟩ | ⟨-, hcr⟩
    · refine h.step hst fun o' data' hlb hs => ?_
      cases hlb
      exact hr hs ha
    · rw [show core (step Γ n ⟨.send data opt, e⟩) = core n from hcr]
      exact h
  | _ =>
    refine hp.invariant (fun c l c' hst hl hc => hc.step hst fun opt data hlb => ?_) h
    subst hlb
    cases hl

/-- A connection that has no frames and has sent nothing. -/
def SizeFresh (n : Node) : Prop := (∀ lane, n.connection.pendingLanes lane = []) ∧ n.connection.sent = [] ∧ n.wire = []

/-- As long as the messages that an encrypted connection accepts leave room for the tag, no datagram of a frame, sent for the first
time or again, is larger than the configured size. -/
theorem length_frame_datagram_le (Γ : Ctx) (hB : Γ.crypto.Tagged) (n : Node) (hn : SizeFresh n) (inputs : List Input)
    (h : Meets (step Γ) (LeavesRoom Γ) n inputs) :
    ∀ entry ∈ (run Γ n inputs).wire, (readHeader entry.2).map type = some .frame →
      entry.2.length ≤ Γ.cfg.maximumDatagramSize.toNat := by
  obtain ⟨hpn, hsn, hw⟩ := hn
  have hs : (core n).FramesFit Γ := by
    constructor
    · rintro frame (⟨lane, hf⟩ | ⟨p, hp, -⟩)
      · simp [core, hpn] at hf
      · simp [core, hsn] at hp
    · intro entry he
      simp [core, hw] at he
  have hrun : (core (run Γ n inputs)).FramesFit Γ :=
    Meets.invariant (I := fun n => (core n).FramesFit Γ) (fun n i hfit hr => framesFit_step hfit hr) hs h
  intro entry he ht
  exact hrun.length_le hB he ht

/-- A backend that only appends a tag. -/
def tagBackend : CryptoBackend :=
  { symbolicBackend with
    seal_ := fun _ _ _ plaintext => plaintext ++ List.replicate tagSize 0
    open_ := fun _ _ _ box => some (box.take (box.length - tagSize)) }

/-- A transport with encryption whose datagrams hold eighteen bytes of payload. -/
def tagCtx : Ctx := ⟨tagBackend, { defaultConfig with maximumDatagramSize := 103, datagramSize_ok := by decide }⟩

/-- A message that leaves room for the tag is sent. -/
theorem length_frame_datagram_le_with_room :
    let inputs : List Input := [⟨.send (List.replicate 2 9) {}, { now := 1000 }⟩, ⟨.advance, { now := 1000 }⟩]
    (run tagCtx secureNode inputs).wire.length = 2 ∧
      ∀ ent ∈ (run tagCtx secureNode inputs).wire, (readHeader ent.2).map type = some .frame →
        ent.2.length ≤ tagCtx.cfg.maximumDatagramSize.toNat := by
  refine ⟨by decide +kernel, length_frame_datagram_le tagCtx ?_ secureNode ⟨fun _ => rfl, rfl, rfl⟩ _ ⟨fun _ _ => ?_, trivial, trivial⟩⟩
  · intro key nonce ad p
    exact (length_append).trans (congrArg _ length_replicate)
  · show 2 + overhead true ≤ 103
    decide

/-- A message that fills a datagram before it is sealed leaves as a datagram that is too large by the tag. -/
theorem length_frame_datagram_exceeds :
    let inputs : List Input := [⟨.send (List.replicate 18 9) {}, { now := 1000 }⟩, ⟨.advance, { now := 1000 }⟩]
    (run tagCtx secureNode inputs).wire.map (fun ent => ((readHeader ent.2).map type, ent.2.length)) =
      [(some .flowControl, 52), (some .frame, 119)] ∧ tagCtx.cfg.maximumDatagramSize.toNat = 103 := by
  decide +kernel

end Libft.Networking
