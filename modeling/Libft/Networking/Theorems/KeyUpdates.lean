import Libft.Networking.Pair

/-!
# Key updates of two connections

A side asks its peer to rotate the receive key; the peer acknowledges under its own send key, and rotates; the acknowledgement lets the
side rotate its send key. Each direction is in step, or waits with its request answered. A side that waits with its request answered
and answers a request of its peer rotates the key that the acknowledgement on its way to it was sealed for: it does not open any more,
and neither does any later one. As long as that does not happen, the acknowledgement of a pending update opens and leaves both
directions in step.
-/

namespace Libft.Networking

open Bytes Function Option SecureChannel Dispatch Side PacketType Packet
open UInt64 (not_le lt_irrefl le_trans le_of_lt le_refl)

variable {Γ : Ctx} {c c' : Core} {l : Label} {d : Dispatch}

/-! ## The keys of a connection -/

/-- The keys of a connection, and the update it has asked for. -/
structure KeyState where
  sendKey : TrafficKey
  receiveKey : TrafficKey
  sendEpoch : UInt64
  receiveEpoch : UInt64
  pending : Bool
  requested : UInt64

/-- The keys of a core. -/
def Core.keys (c : Core) : KeyState where
  sendKey := c.channel.sendKey
  receiveKey := c.channel.receiveKey
  sendEpoch := c.channel.sendKeyEpoch
  receiveEpoch := c.channel.receiveKeyEpoch
  pending := c.updatePending
  requested := c.updateEpoch

/-- The labels of steps that change the keys, or what was asked for. -/
def Label.turnsKeys : Label → Bool
  | .request _ | .answer _ _ | .confirm _ | .rotate | .install => true
  | _ => false

/-- One step of the keys of a connection that does not rotate them on its own. -/
inductive KeyStep (B : CryptoBackend) : KeyState → Label → KeyState → Prop
  | keep (k : KeyState) (l : Label) (hl : l.turnsKeys = false) : KeyStep B k l k
  | request (k : KeyState) (epoch : UInt64) (hp : k.pending = false) (he : k.sendEpoch < epoch) :
      KeyStep B k (.request epoch) { k with pending := true, requested := epoch }
  | answer (k : KeyState) (epoch : UInt64) (he : k.receiveEpoch < epoch) :
      KeyStep B k (.answer k.receiveEpoch epoch)
        { k with receiveKey := B.deriveKeyUpdate k.receiveKey epoch, receiveEpoch := epoch }
  | confirm (k : KeyState) (hp : k.pending = true) :
      KeyStep B k (.confirm k.requested) { k with
        sendKey := B.deriveKeyUpdate k.sendKey k.requested
        sendEpoch := k.requested
        pending := false
        requested := 0 }

variable {k k' : KeyState}

theorem KeyStep.eq_of_not_turns {B : CryptoBackend} (h : KeyStep B k l k') (hl : l.turnsKeys = false) : k' = k := by
  cases h with
  | keep => rfl
  | _ => cases hl

theorem KeyStep.answer_eq {B : CryptoBackend} {keyEpoch ep : UInt64}
    (h : KeyStep B k (.answer keyEpoch ep) k') : k'.receiveEpoch = ep ∧ k'.sendKey = k.sendKey ∧ k'.sendEpoch = k.sendEpoch := by
  cases h with
  | keep _ hl => cases hl
  | answer => exact ⟨rfl, rfl, rfl⟩

/-- What a connection needs to send and to open: it is encrypted and has keys. -/
def Core.Ready (c : Core) : Prop := c.secure = true ∧ c.channel.initialised = true

/-- A packet that is sent leaves the keys of the channel alone. -/
theorem Core.Protects.keys {p : Packet} {data : Bytes} {ch : SecureChannel} (h : c.Protects Γ p data ch) :
    ch = { c.channel with highestSentPacket := ch.highestSentPacket, hasSentPacket := ch.hasSentPacket } := by
  by_cases hp : c.protects p = true
  · obtain ⟨-, -, rfl⟩ := h.sealed hp
    rfl
  · rw [Core.Protects, if_neg hp] at h
    rw [h.2]

/-- A step of a connection that has keys, other than a rotation of its own, is a step of the keys. -/
theorem Step.keyStep (h : Step Γ c l c') (hc : c.Ready) (hl : l ≠ .rotate) : KeyStep Γ.crypto c.keys l c'.keys ∧ c'.Ready := by
  have hsn {p : Packet} {data : Bytes} {ch : SecureChannel} (hd : c.Protects Γ p data ch) :
      Core.keys { c with channel := ch } = c.keys ∧ Core.Ready { c with channel := ch } := by
    rw [hd.keys]
    exact ⟨rfl, hc⟩
  cases h with
  | emit _ _ _ _ _ hd | burn _ _ _ hd | transmit _ _ _ _ _ _ _ _ _ hd
    | retransmit _ _ _ _ _ _ _ _ hd =>
    obtain ⟨hk, hrd⟩ := hsn hd
    exact ⟨hk ▸ .keep _ _ rfl, hrd⟩
  | install sendKey rk ch hch =>
    rw [initializeDirectional, if_pos hc.2] at hch
    cases hch
  | clearPrevious ch hch =>
    unfold clearPreviousReceiveKey at hch
    split at hch
    · cases hch
    split at hch
    · cases hch
      exact ⟨.keep _ _ rfl, hc⟩
    · cases hch
      exact ⟨.keep _ _ rfl, hc⟩
  | opened storage num ep ad box txt ch hch =>
    rcases openAtEpoch_eq_some hch with ⟨-, -, -, rfl⟩ | ⟨-, -, -, -, -, rfl⟩
    · exact ⟨.keep _ _ rfl, hc⟩
    · exact ⟨.keep _ _ rfl, hc⟩
  | request dst ep data ch hs hp he hd =>
    have hk := hd.keys
    rw [hk]
    exact ⟨.request c.keys ep hp he, hc⟩
  | answer dst ep data ch ch' hs he hd hr =>
    rw [hd.keys] at hr
    unfold updateReceiveKeyEpoch at hr
    split at hr
    · cases hr
    split at hr
    · cases hr
    cases hr
    exact ⟨.answer c.keys ep he, hc⟩
  | confirm ch hs hp hch =>
    unfold updateSendKeyEpoch at hch
    split at hch
    · cases hch
    split at hch
    · cases hch
    cases hch
    exact ⟨.confirm c.keys hp, hc⟩
  | rotate => exact absurd rfl hl
  | _ => exact ⟨.keep _ _ rfl, hc⟩

/-! ## The keys of two sides -/

section Keys

variable {B : CryptoBackend} {a b : KeyState}

/-- The direction from one side to the other is in step. -/
def InStep (a b : KeyState) : Prop := b.receiveKey = a.sendKey ∧ b.receiveEpoch = a.sendEpoch

/-- One side waits for an update that the other has answered. -/
def Answered (B : CryptoBackend) (a b : KeyState) : Prop :=
  a.pending = true ∧ b.receiveKey = B.deriveKeyUpdate a.sendKey a.requested ∧ b.receiveEpoch = a.requested

/-- Each direction is in step or answered, and not both are answered. -/
structure KeysAgree (B : CryptoBackend) (a b : KeyState) : Prop where
  forth : InStep a b ∨ Answered B a b
  back : InStep b a ∨ Answered B b a
  newer : a.pending = true → a.sendEpoch < a.requested
  newer_back : b.pending = true → b.sendEpoch < b.requested
  single : ¬(Answered B a b ∧ Answered B b a)

/-- What a packet of a key update on the wire of a side still means. A request is out of date or is the one that is pending. An
acknowledgement is of an epoch that was reached, and one that the peer waits for is sealed under the current send key. -/
def Meaningful (a b : KeyState) (d : Dispatch) : Prop :=
  match d.packet with
  | .keyUpdate next => next ≤ a.sendEpoch ∨ (a.pending = true ∧ next = a.requested)
  | .keyUpdateAck acknowledged => acknowledged ≤ a.receiveEpoch ∧
      (b.pending = true → acknowledged = b.requested → d.key = some a.sendKey ∧ d.epoch = a.sendEpoch)
  | _ => True

/-- What it takes to turn the keys: an answer is to the request that the peer waits for, and does not cross with an answered one of the
side's own; a confirmation is of an answered request. -/
def Permits (B : CryptoBackend) (a b : KeyState) : Label → Prop
  | .answer _ epoch => ¬Answered B a b ∧ b.pending = true ∧ epoch = b.requested ∧ InStep b a
  | .confirm _ => Answered B a b
  | _ => True

namespace KeysAgree

section

variable (h : KeysAgree B a b)

include h

theorem symm : KeysAgree B b a := ⟨h.back, h.forth, h.newer_back, h.newer, fun hb => h.single hb.symm⟩

/-- A request that a side would answer is the one its peer waits for, and was not answered before. -/
theorem asked {ep : UInt64} (hd : Meaningful b a d) (ht : d.packet = .keyUpdate ep) (hn : a.receiveEpoch < ep) :
    b.pending = true ∧ ep = b.requested ∧ InStep b a := by
  rw [Meaningful, ht] at hd
  rcases hd with ho | ⟨hp, hr⟩
  · -- a request that is out of date is at most the epoch of the receive key
    exfalso
    rcases h.back with ⟨-, he⟩ | ⟨hp, -, he⟩
    · rw [he] at hn
      exact not_le.2 hn ho
    · rw [he] at hn
      exact not_le.2 (UInt64.lt_trans (h.newer_back hp) hn) ho
  · refine ⟨hp, hr, h.back.resolve_right fun ha => ?_⟩
    rw [ha.2.2, hr] at hn
    exact lt_irrefl _ hn

/-- An acknowledgement of the update that a side waits for shows that its peer has answered. -/
theorem answered (hd : Meaningful b a d) (ht : d.packet = .keyUpdateAck a.requested) (hp : a.pending = true) : Answered B a b := by
  rw [Meaningful, ht] at hd
  refine h.forth.resolve_left fun hs => not_le.2 (h.newer hp) ?_
  rw [← hs.2]
  exact hd.1

variable {a' : KeyState}

/-- The keys agree after a step of one side. -/
theorem step (hst : KeyStep B a l a') (hl : Permits B a b l) : KeysAgree B a' b := by
  cases hst with
  | keep => exact h
  | request ep hp he =>
    have hs : InStep a b := h.forth.resolve_right fun ha => absurd (hp.symm.trans ha.1) nofun
    refine ⟨.inl hs, h.back, fun _ => he, h.newer_back, fun ⟨ha, _⟩ => ?_⟩
    -- the peer is at the epoch of the send key, which is below the one that is asked for
    have hr : b.receiveEpoch = ep := ha.2.2
    rw [← hr, hs.2] at he
    exact lt_irrefl _ he
  | answer ep he =>
    obtain ⟨hc, hp, rfl, hs⟩ := hl
    refine ⟨h.forth, .inr ⟨hp, ?_, rfl⟩, h.newer, h.newer_back, fun ⟨ha, _⟩ => hc ha⟩
    show B.deriveKeyUpdate a.receiveKey b.requested = B.deriveKeyUpdate b.sendKey b.requested
    rw [hs.1]
  | confirm hp =>
    have ha : Answered B a b := hl
    have hb : InStep b a := h.back.resolve_right fun hbt => h.single ⟨ha, hbt⟩
    exact ⟨.inl ha.2, .inl hb, nofun, h.newer_back, fun ⟨hpn, _⟩ => absurd hpn.1 nofun⟩

/-- What was sent by the side that steps means what it did. -/
theorem meaningful (hs : KeyStep B a l a') (hl : Permits B a b l) (hd : Meaningful a b d) : Meaningful a' b d := by
  cases hs with
  | keep => exact hd
  | request ep hp he =>
    unfold Meaningful at hd ⊢
    split at hd
    · exact .inl (hd.resolve_right fun hpn => absurd (hp.symm.trans hpn.1) nofun)
    · exact hd
    · trivial
  | answer ep he =>
    unfold Meaningful at hd ⊢
    split at hd
    · exact hd
    · exact ⟨le_trans hd.1 (le_of_lt he), hd.2⟩
    · trivial
  | confirm hp =>
    have hnw := h.newer hp
    have ha : Answered B a b := hl
    cases hpkt : d.packet with
    | keyUpdate next =>
      rw [Meaningful, hpkt] at hd ⊢
      refine .inl ?_
      rcases hd with ho | ⟨-, hr⟩
      · exact le_trans ho (le_of_lt hnw)
      · exact hr ▸ le_refl _
    | keyUpdateAck ack =>
      have hrc := hd
      rw [Meaningful, hpkt] at hrc ⊢
      refine ⟨hrc.1, fun hpn hr => ?_⟩
      exact absurd ⟨ha, h.symm.answered hd (hr ▸ hpkt) hpn⟩ h.single
    | _ => rw [Meaningful, hpkt]; trivial

/-- What was sent by the peer of the side that steps means what it did. -/
theorem meaningful_back (hst : KeyStep B a l a') (hd : Meaningful b a d) : Meaningful b a' d := by
  cases hst with
  | keep | answer _ _ => exact hd
  | request ep hp he =>
    have hs : InStep a b := h.forth.resolve_right fun ha => absurd (hp.symm.trans ha.1) nofun
    unfold Meaningful at hd ⊢
    split at hd
    · exact hd
    · refine ⟨hd.1, fun _ hrq => ?_⟩
      have hr := hd.1
      rw [hs.2, hrq] at hr
      exact absurd hr (not_le.2 he)
    · trivial
  | confirm hp =>
    unfold Meaningful at hd ⊢
    split at hd
    · exact hd
    · exact ⟨hd.1, nofun⟩
    · trivial

end

end KeysAgree

end Keys

/-! ## The keys of a pair -/

/-- Both sides have keys, the keys agree, and what is on the wire still means something. -/
structure KeyInvariant (B : CryptoBackend) (cs : Side → Core) : Prop where
  ready : ∀ s, (cs s).Ready
  id_eq : ∀ s, (cs s.other).id = (cs s).id
  agree : ∀ s, KeysAgree B (cs s).keys (cs s.other).keys
  wired : ∀ s, (cs s).Wired B (Meaningful (cs s).keys (cs s.other).keys)

/-- What a step sends means what it says. -/
theorem meaningful_dispatch {p : Packet} {b : KeyState} (h : Step Γ c l c')
    (hp : l.packet c = some p) (hk : KeyStep Γ.crypto c.keys l c'.keys) : Meaningful c'.keys b (c.dispatch p) := by
  have hsl (hse : p.isKeyUpdate = true) :
      (c.dispatch p).key = some c.keys.sendKey ∧ (c.dispatch p).epoch = c.keys.sendEpoch := by
    have hpr : c.protects p = true := by simp [Core.protects, hse]
    simp only [Core.dispatch, hpr, if_true]
    exact ⟨rfl, rfl⟩
  cases h with
  | emit p dst data ch hm hd =>
    obtain rfl := some.inj hp
    rw [hk.eq_of_not_turns rfl]
    cases p with
    | keyUpdate next => exact .inr hm
    | keyUpdateAck ack => exact ⟨hm.2 ▸ le_refl _, fun _ _ => hsl rfl⟩
    | _ => trivial
  | transmit | retransmit =>
    cases hp
    trivial
  | request dst ep data ch hs hpn he hd =>
    cases hp
    exact .inr ⟨rfl, rfl⟩
  | answer dst ep data ch ch' hs he hd hr =>
    cases hp
    obtain ⟨hrc, hy, hep⟩ := hk.answer_eq
    refine ⟨hrc ▸ le_refl _, fun _ _ => ?_⟩
    rw [hy, hep]
    exact hsl rfl
  | _ => cases hp

theorem KeyInvariant.step {Γ : PairCtx} {cs : Side → Core} {s : Side}
    (h : KeyInvariant Γ.crypto cs) (hs : Step (Γ.ctx s) (cs s) l c') (hr : l ≠ .rotate)
    (hl : Permits Γ.crypto (cs s).keys (cs s.other).keys l) : KeyInvariant Γ.crypto (update cs s c') := by
  obtain ⟨hk, hrd⟩ := hs.keyStep (h.ready s) hr
  have ho : update cs s c' s.other = cs s.other := update_of_ne (other_ne s) _ _
  have ha : KeysAgree Γ.crypto c'.keys (cs s.other).keys := (h.agree s).step hk hl
  -- each part is shown for the side that steps and for its peer
  refine ⟨s.both ?_ ?_, s.both ?_ ?_, s.both ?_ ?_, s.both ?_ ?_⟩
  · rwa [update_self]
  · rw [ho]
    exact h.ready s.other
  · rw [ho, update_self, hs.id_eq]
    exact h.id_eq s
  · rw [other_other, ho, update_self, hs.id_eq]
    exact (h.id_eq s).symm
  · rwa [ho, update_self]
  · rw [other_other, ho, update_self]
    exact ha.symm
  · rw [ho, update_self]
    have hold := (h.wired s).mono fun d hd => (h.agree s).meaningful hk hl hd
    exact hold.step hs fun p hp => meaningful_dispatch hs hp hk
  · rw [other_other, ho, update_self]
    have hb := h.wired s.other
    rw [other_other] at hb
    exact hb.mono fun d hd => (h.agree s).meaningful_back hk hd

/-! ## Updates that cross -/

/-- Whether a datagram is a key update that makes a connection rotate its receive key. -/
def rotatesReceiveKey (Γ : Ctx) (e : Env) (n : Node) (data : Bytes) : Bool :=
  match readHeader data, openDatagram Γ e n .keyUpdate data with
  | some ⟨.keyUpdate, _, _⟩, .ok (packet, _) =>
    match readControl packet with
    | some body =>
      decide (body.keyEpoch = n.connection.secureChannel.receiveKeyEpoch) &&
        decide (n.connection.secureChannel.receiveKeyEpoch < body.value)
    | none => false
  | _, _ => false

/-- Whether an action makes a side rotate its receive key while the peer has already answered an update that the side waits for. -/
def crosses (Γ : PairCtx) (p : Pair) : Action → Bool
  | .call .. => false
  | .deliver side index _ env =>
    match (p.node side.other).wire[index]? with
    | none => false
    | some (_, data) =>
      let c := (p.node side).connection
      rotatesReceiveKey (Γ.ctx side) env (p.node side) data && c.keyUpdatePending &&
        decide ((p.node side.other).connection.secureChannel.receiveKeyEpoch = c.keyUpdateEpoch)

/-- The actions that rotate both keys of a side without a word to the peer. -/
def Action.rotates : Action → Bool
  | .call _ ⟨.updateKeyEpoch _, _⟩ _ => true
  | _ => false

/-- Keys are only updated on request, and requests do not cross. -/
structure NoCrossing (Γ : PairCtx) (p : Pair) (a : Action) : Prop where
  onRequest : a.rotates = false
  apart : crosses Γ p a = false

/-- What was asked for changes only with a request or its confirmation. -/
theorem Step.update_eq (h : Step Γ c l c') (hr : ∀ ep, l ≠ .request ep)
    (hc : ∀ ep, l ≠ .confirm ep) : c'.updatePending = c.updatePending ∧ c'.updateEpoch = c.updateEpoch := by
  cases h with
  | request dst ep => exact absurd rfl (hr ep)
  | confirm => exact absurd rfl (hc _)
  | _ => exact ⟨rfl, rfl⟩

section Crossing

variable {Γ : PairCtx} {p : Pair} {a : Action} {i : Input} {cs : Side → Core}

/-- A control packet of the peer, as it is read. -/
theorem KeyInvariant.readControl_eq (h : KeyInvariant Γ.crypto cs) (hB : Γ.crypto.Ideal) (s : Side) {e : Env} {n : Node}
    (hn : n.connection.secureEnabled = true) {ent : Endpoint × Bytes} (he : ent ∈ (cs s.other).wire) {type : PacketType}
    {flag : UInt8} {pkt : Bytes} {body : ControlBody} (ho : Opens (Γ.ctx s) e n ent.2 type flag pkt)
    (hb : readControl pkt = some body) (ht : type = .keyUpdate ∨ type = .keyUpdateAck) :
    ∃ d, Meaningful (cs s.other).keys (cs s).keys d ∧
      d.packet = if type = .keyUpdate then .keyUpdate body.value else .keyUpdateAck body.value := by
  have hs := (h.ready s.other).1
  have hw := h.wired s.other
  rw [other_other] at hw
  obtain ⟨d, hd, hp, -, rfl⟩ := hw.opens (Γ := Γ.ctx s) hB (hs.trans hn.symm) he ho (by rcases ht with rfl | rfl <;> rfl) (.inl hs)
  refine ⟨d, hd, ?_⟩
  unfold plain at hb
  cases hkind : d.packet with
  | keyUpdate _ | keyUpdateAck _ =>
    rw [hkind] at hb hp
    rw [encode, readControl_encode] at hb
    obtain rfl := some.inj hb
    rw [← hp]
    rfl
  | _ =>
    rw [hkind] at hp
    rcases ht with rfl | rfl <;> cases hp

theorem crosses_of_rotates {src : Endpoint} {data : Bytes} (hi : a.input p = some i) (hc : i.call = .process src data)
    (hr : rotatesReceiveKey (Γ.ctx a.side) i.env (p.node a.side) data = true)
    (hp : (p.cores a.side).updatePending = true)
    (ha : (p.cores a.side.other).channel.receiveKeyEpoch = (p.cores a.side).updateEpoch) : crosses Γ p a = true := by
  cases a with
  | call side j hj =>
    obtain rfl : j = i := some.inj hi
    rw [hc] at hj
    cases hj
  | deliver side idx sender env =>
    obtain ⟨ent, he, rfl⟩ := map_eq_some_iff.1 hi
    obtain ⟨-, rfl⟩ := Call.process.inj hc
    have hp' : (p.node side).connection.keyUpdatePending = true := hp
    have ha' : (p.node side.other).connection.secureChannel.receiveKeyEpoch = (p.node side).connection.keyUpdateEpoch := ha
    have hr' : rotatesReceiveKey (Γ.ctx side) env (p.node side) ent.2 = true := hr
    simp [crosses, he, hr', hp', ha']

/-- A step of an action that does not cross is permitted. What the side waits for must be what it waited for when the action began, if
the datagram is a key update. -/
theorem KeyInvariant.permits (h : KeyInvariant Γ.crypto cs) (hB : Γ.crypto.Ideal) (ha : NoCrossing Γ p a)
    (hi : a.input p = some i) (hot : cs a.side.other = p.cores a.side.other)
    (hn : (p.node a.side).connection.secureEnabled = true)
    (hsm : ∀ src data flag id, i.call = .process src data → readHeader data = some ⟨.keyUpdate, flag, id⟩ →
      (cs a.side).updatePending = (p.cores a.side).updatePending ∧ (cs a.side).updateEpoch = (p.cores a.side).updateEpoch)
    (hst : Step (Γ.ctx a.side) (cs a.side) l c') (hl : CallLabel (Γ.ctx a.side) (p.node a.side) i l) :
    Permits Γ.crypto (cs a.side).keys (cs a.side.other).keys l := by
  cases hst with
  | answer dst ep data ch ch' hs he hdt hr =>
    obtain ⟨src, data, hcl, flag, pkt, body, ho, hb, hke, hv, hc⟩ := hl.heard rfl
    obtain ⟨dst, hen⟩ := Action.mem_wire hi hcl
    rw [← hot] at hen
    obtain ⟨d, hd, ht⟩ := h.readControl_eq hB a.side hn hen ho hb (.inl rfl)
    rw [if_pos rfl, hv] at ht
    refine ⟨fun han => ?_, (h.agree a.side).asked hd ht he⟩
    -- the datagram rotates the receive key, and the peer has answered: the action crosses
    obtain ⟨hpn, hep⟩ := hsm src data flag _ hcl ho.1
    obtain ⟨hh, n', hop⟩ := ho
    have hrt : rotatesReceiveKey (Γ.ctx a.side) i.env (p.node a.side) data = true := by
      have hw : (p.node a.side).connection.secureChannel.receiveKeyEpoch < body.value := by
        rw [← hc, hv]
        exact he
      simp only [rotatesReceiveKey, hh, hop, hb, hke, hc, hw, decide_true, Bool.and_self]
    have hcr := crosses_of_rotates hi hcl hrt (hpn.symm.trans han.1) (by
      rw [← hot, ← hep]
      exact han.2.2)
    exact absurd (ha.apart.symm.trans hcr) nofun
  | confirm ch hs hp hch =>
    obtain ⟨src, data, hcl, flag, pkt, body, ho, hb, hke, hv⟩ := hl.heard rfl
    obtain ⟨dst, hen⟩ := Action.mem_wire hi hcl
    rw [← hot] at hen
    obtain ⟨d, hd, ht⟩ := h.readControl_eq hB a.side hn hen ho hb (.inr rfl)
    rw [if_neg nofun, hv] at ht
    exact (h.agree a.side).answered hd ht hp
  | _ => trivial

theorem KeyInvariant.pairStep (h : KeyInvariant Γ.crypto p.cores) (hB : Γ.crypto.Ideal) (ha : NoCrossing Γ p a) :
    KeyInvariant Γ.crypto (pairStep Γ p a).cores := by
  refine (pairStep_invariant (I := fun cs _ => KeyInvariant Γ.crypto cs ∧
    ∀ i src data flag id, a.input p = some i → i.call = .process src data →
      readHeader data = some ⟨.keyUpdate, flag, id⟩ →
      (cs a.side).updatePending = (p.cores a.side).updatePending ∧
        (cs a.side).updateEpoch = (p.cores a.side).updateEpoch) ⟨h, fun _ _ _ _ _ _ _ _ => ⟨rfl, rfl⟩⟩ ?_ ?_).1
  · rintro i hi cs l c' ⟨hc, hsm⟩ ho hs hl -
    have hr : l ≠ .rotate := by
      rintro rfl
      obtain ⟨call, e⟩ := i
      cases call with
      | updateKeyEpoch ep =>
        cases a with
        | call side j hj =>
          obtain rfl : j = _ := some.inj hi
          exact absurd ha.onRequest nofun
        | deliver side idx src env =>
          obtain ⟨ent, -, he⟩ := map_eq_some_iff.1 hi
          cases he
      | send => cases hl
      | _ => exact hl
    have hp := hc.permits hB ha hi ho (h.ready a.side).1 (fun src data flag id => hsm i src data flag id hi) hs hl
    refine ⟨hc.step hs hr hp, fun j src data flag id hj hcl hh => ?_⟩
    obtain rfl := some.inj (hi.symm.trans hj)
    rw [update_self]
    -- a key update is neither a request of the side itself nor an acknowledgement
    obtain ⟨hpn, hep⟩ := hs.update_eq
      (by
        rintro ep rfl
        rw [CallLabel, hcl] at hl
        exact hl)
      (by
        rintro ep rfl
        obtain ⟨src', data', hc', flag', pkt, body, hop, -⟩ := hl.heard rfl
        obtain ⟨-, rfl⟩ := Call.process.inj (hcl.symm.trans hc')
        exact absurd (congrArg Header.type (some.inj (hh.symm.trans hop.1))) nofun)
    obtain ⟨hp', he'⟩ := hsm i src data flag id hi hcl hh
    exact ⟨hpn.trans hp', hep.trans he'⟩
  · intro data opt e hi c' hs
    refine ⟨h.step hs nofun trivial, fun i src data' flag id hi' hcl => ?_⟩
    obtain rfl := some.inj (hi.symm.trans hi')
    cases hcl

end Crossing

/-! ## The acknowledgement of a pending update -/

/-- An acknowledgement of the pending update, sealed under the receive key, turns the send key. -/
theorem processDatagram_keyUpdateAck (hB : Γ.crypto.Ideal) {e : Env} {n : Node}
    (hst : n.connection.state = .connected ∨ n.connection.state = .draining) (hr : (core n).Ready)
    (hok : e.ok .open_ = true) (hpkt : d.packet = .keyUpdateAck n.connection.keyUpdateEpoch)
    (hk : d.key = some n.connection.secureChannel.receiveKey) (he : d.epoch = n.connection.secureChannel.receiveKeyEpoch)
    (ha : n.connection.secureChannel.received.acceptsPacketNumber d.number = true)
    (hp : n.connection.keyUpdatePending = true)
    (hnw : n.connection.secureChannel.sendKeyEpoch < n.connection.keyUpdateEpoch) :
    let r := processDatagram Γ e n n.connection.remote (d.bytes Γ.crypto n.connection.id)
    r.2 = .success ∧ r.1.connection.keyUpdatePending = false ∧
      r.1.connection.secureChannel.sendKey =
        Γ.crypto.deriveKeyUpdate n.connection.secureChannel.sendKey n.connection.keyUpdateEpoch ∧
      r.1.connection.secureChannel.sendKeyEpoch = n.connection.keyUpdateEpoch ∧
      r.1.connection.secureChannel.receiveKey = n.connection.secureChannel.receiveKey ∧
      r.1.connection.secureChannel.receiveKeyEpoch = n.connection.secureChannel.receiveKeyEpoch := by
  intro r
  have hs : n.connection.secureEnabled = true := hr.1
  have hi : n.connection.secureChannel.initialised = true := hr.2
  have ht : d.packet.type = .keyUpdateAck := by rw [hpkt]; rfl
  have hh : readHeader (d.bytes Γ.crypto n.connection.id) = some ⟨.keyUpdateAck, 0, n.connection.id⟩ := by
    obtain ⟨more, hmr⟩ := d.bytes_eq Γ.crypto n.connection.id
    have hl : minimumSize .keyUpdateAck ≤ (d.bytes Γ.crypto n.connection.id).length := by
      rw [bytes, List.length_append, length_associatedData, ht, rest, hk]
      have := hB.length_seal n.connection.secureChannel.receiveKey.key
        (prepareNonce n.connection.secureChannel.receiveKey.initializationVector d.number)
        (d.associatedData n.connection.id) d.packet.body
      simp only [minimumSize, associatedDataLength, tagSize] at this ⊢
      omega
    rw [hmr, ht, show d.packet.flag = 0 by rw [hpkt]; rfl] at hl ⊢
    exact readHeader_encodeHeader hl
  have ho : openDatagram Γ e n d.packet.type (d.bytes Γ.crypto n.connection.id) = _ :=
    openDatagram_of_receiveKey hB hs hi hok hk he ha
  rw [ht] at ho
  have hb : readControl (d.plain n.connection.id) =
      some ⟨n.connection.id, d.number, n.connection.secureChannel.receiveKeyEpoch, n.connection.keyUpdateEpoch⟩ := by
    rw [plain, hpkt, encode, readControl_encode, he]
  have hpr : r = processKeyUpdateAck Γ e (n.modify fun c => { c with
      secureChannel := { c.secureChannel with received := c.secureChannel.received.recordPacketNumber d.number } })
      (d.plain n.connection.id) := by
    have hac : ¬(n.connection.state ≠ .connected ∧ n.connection.state ≠ .draining) := by tauto
    simp only [r, processDatagram, hh, ne_eq, not_true_eq_false, if_false, isHandshake, Bool.false_eq_true,
      processPacket, hac, false_and, ho, processOpened]
  have hrt : ¬n.connection.keyUpdateEpoch ≤ n.connection.secureChannel.sendKeyEpoch := not_le.2 hnw
  rw [hpr, processKeyUpdateAck, hb]
  simp [Node.modify, hs, hp, updateSendKeyEpoch, hi, hrt, countReceived]

/-- Two connections that were just established: both have keys, each sends under the key that the other receives under, no update is
pending and nothing was sent but handshake packets. -/
structure Linked (p : Pair) : Prop where
  ready : ∀ s, (p.cores s).Ready
  id_eq : ∀ s, (p.node s.other).connection.id = (p.node s).connection.id
  key : ∀ s, (p.node s.other).connection.secureChannel.receiveKey = (p.node s).connection.secureChannel.sendKey
  epoch : ∀ s, (p.node s.other).connection.secureChannel.receiveKeyEpoch = (p.node s).connection.secureChannel.sendKeyEpoch
  idle : ∀ s, (p.node s).connection.keyUpdatePending = false
  silent : ∀ s, ∀ entry ∈ (p.node s).wire, ∃ type more, type.isHandshake = true ∧
    entry.2 = encodeHeader type 0 (p.node s).connection.id ++ more

theorem Linked.keyInvariant {B : CryptoBackend} {p : Pair} (h : Linked p) : KeyInvariant B p.cores where
  ready := h.ready
  id_eq := h.id_eq
  agree s := by
    have hid (t : Side) {P : Prop} (hp : (p.cores t).keys.pending = true) : P := absurd ((h.idle t).symm.trans hp) nofun
    refine ⟨.inl ⟨h.key s, h.epoch s⟩, .inl ?_, hid s, hid s.other, fun hb => hid s hb.1.1⟩
    have hk := h.key s.other
    have he := h.epoch s.other
    rw [other_other] at hk he
    exact ⟨hk, he⟩
  wired s entry hen := .inl (h.silent s entry hen)

/-- A datagram of the peer, with this packet number, acknowledges the update that a side waits for, and reaches it in a state in which
it reads packets of its peer: the connection is open, and there is memory to open it. -/
structure Acknowledges (Γ : PairCtx) (p : Pair) (s : Side) (e : Env) (number : UInt64) (data : Bytes) : Prop where
  pending : (p.node s).connection.keyUpdatePending = true
  sent : ∃ destination, (destination, data) ∈ (p.node s.other).wire
  content : ∃ epoch key, data = bytes Γ.crypto (p.node s).connection.id
    ⟨.keyUpdateAck (p.node s).connection.keyUpdateEpoch, number, epoch, some key⟩
  state : (p.node s).connection.state = .connected ∨ (p.node s).connection.state = .draining
  memory : e.ok .open_ = true

/-- Each of two connections sends under the key that the other receives under. -/
structure KeysMatch (n peer : Node) : Prop where
  sendKey : n.connection.secureChannel.sendKey = peer.connection.secureChannel.receiveKey
  sendEpoch : n.connection.secureChannel.sendKeyEpoch = peer.connection.secureChannel.receiveKeyEpoch
  receiveKey : n.connection.secureChannel.receiveKey = peer.connection.secureChannel.sendKey
  receiveEpoch : n.connection.secureChannel.receiveKeyEpoch = peer.connection.secureChannel.sendKeyEpoch

/-- The replay window of a side takes a packet number: it was not received, and is less than 64 below the highest that was. An
acknowledgement that comes later than that is refused, and the update stays pending. -/
def InWindow (p : Pair) (s : Side) (number : UInt64) : Prop :=
  (p.node s).connection.secureChannel.received.acceptsPacketNumber number = true

/-- In every run in which key updates do not cross, an acknowledgement of a pending update that is delivered within the replay window is
opened, clears the pending update, installs the new send key, and leaves the keys of both directions matching. -/
theorem keysMatch_after_keyUpdateAck (Γ : PairCtx) (hB : Γ.crypto.Ideal) (p : Pair) (hp : Linked p) (actions : List Action)
    (h : Meets (pairStep Γ) (NoCrossing Γ) p actions) (s : Side) (e : Env) (number : UInt64) (data : Bytes) :
    let q := runPair Γ p actions
    let n := q.node s
    let r := processDatagram (Γ.ctx s) e n n.connection.remote data
    Acknowledges Γ q s e number data → InWindow q s number →
      r.2 = .success ∧ r.1.connection.keyUpdatePending = false ∧
        r.1.connection.secureChannel.sendKey =
          Γ.crypto.deriveKeyUpdate n.connection.secureChannel.sendKey n.connection.keyUpdateEpoch ∧
        KeysMatch r.1 (q.node s.other) := by
  intro q n r hk hac
  have hi : KeyInvariant Γ.crypto q.cores :=
    Meets.invariant (I := fun p => KeyInvariant Γ.crypto p.cores) (fun _ _ hp ha => hp.pairStep hB ha) hp.keyInvariant h
  have hag := hi.agree s
  obtain ⟨dst, he⟩ := hk.sent
  obtain ⟨ep, key, hdt⟩ := hk.content
  have hid : (q.cores s.other).id = n.connection.id := hi.id_eq s
  -- the datagram is the one that the peer sent, so what it says is still true
  obtain ⟨d, hd, hpkt, hn, hbs⟩ : ∃ d : Dispatch, Meaningful (q.cores s.other).keys (q.cores s).keys d ∧
      d.packet = .keyUpdateAck n.connection.keyUpdateEpoch ∧ d.number = number ∧
      data = d.bytes Γ.crypto n.connection.id := by
    have hw := hi.wired s.other
    rw [other_other] at hw
    rcases hw _ he with ⟨type, more, ht, hbs⟩ | ⟨d, hd, hsm, hbs⟩
    · obtain ⟨more', hmr⟩ := bytes_eq Γ.crypto n.connection.id ⟨.keyUpdateAck n.connection.keyUpdateEpoch, number, ep, some key⟩
      rw [← encodeHeader_inj (hmr.symm.trans (hdt.symm.trans hbs))] at ht
      cases ht
    · rw [hid] at hbs
      rw [Core.protects, (hi.ready s.other).1, Bool.true_or] at hsm
      obtain ⟨ht, hn, hbd⟩ := bytes_inj hB (hdt.symm.trans hbs) rfl hsm
      refine ⟨d, hd, ?_, hn.symm, hbs⟩
      cases hkind : d.packet with
      | keyUpdateAck ack =>
        rw [hkind] at hbd
        have hv := congrArg readU64 hbd
        simp only [body, readU64_write_last, some.injEq, Prod.mk.injEq, and_true] at hv
        rw [hv]
      | _ =>
        rw [hkind] at ht
        cases ht
  have han : Answered Γ.crypto (q.cores s).keys (q.cores s.other).keys := hag.answered hd hpkt hk.pending
  have hb : InStep (q.cores s.other).keys (q.cores s).keys := hag.back.resolve_right fun hbt => hag.single ⟨han, hbt⟩
  have hs : d.key = some (q.cores s.other).keys.sendKey ∧ d.epoch = (q.cores s.other).keys.sendEpoch := by
    rw [Meaningful, hpkt] at hd
    exact hd.2 hk.pending rfl
  obtain ⟨hc, hpn, hsn, hep, hrc, hre⟩ := processDatagram_keyUpdateAck (Γ := Γ.ctx s) hB (e := e)
    (d := d) hk.state (hi.ready s) hk.memory hpkt (hs.1.trans (congrArg some hb.1.symm))
    (hs.2.trans hb.2.symm) (by rw [hn]; exact hac) hk.pending (hag.newer hk.pending)
  have hr : r = processDatagram (Γ.ctx s) e n n.connection.remote (d.bytes Γ.crypto n.connection.id) := by rw [← hbs]
  rw [hr]
  exact ⟨hc, hpn, hsn, hsn.trans han.2.1.symm, hep.trans han.2.2.symm, hrc.trans hb.1, hre.trans hb.2⟩

theorem linked_securePair : Linked securePair where
  ready _ := ⟨rfl, rfl⟩
  id_eq _ := rfl
  key _ := rfl
  epoch _ := rfl
  idle _ := rfl
  silent _ := nofun

/-- One side asks for an update, and the other answers. -/
theorem keysMatch_after_single_update :
    let q := runPair securePairCtx securePair
      [.call .left ⟨.requestKeyUpdate 1, { now := 1000 }⟩, .deliver .right 0 ⟨[1]⟩ { now := 1000 }]
    let data := bytes symbolicBackend 7 ⟨.keyUpdateAck 1, 1, 0, some .wiped⟩
    let r := processDatagram (securePairCtx.ctx .left) { now := 1000 } (q.node .left) (q.node .left).connection.remote data
    r.2 = .success ∧ r.1.connection.keyUpdatePending = false ∧
      r.1.connection.secureChannel.sendKey = symbolicBackend.deriveKeyUpdate (q.node .left).connection.secureChannel.sendKey
        (q.node .left).connection.keyUpdateEpoch ∧
      KeysMatch r.1 (q.node Side.left.other) :=
  keysMatch_after_keyUpdateAck securePairCtx symbolicBackend_ideal securePair linked_securePair
    [.call .left ⟨.requestKeyUpdate 1, { now := 1000 }⟩, .deliver .right 0 ⟨[1]⟩ { now := 1000 }]
    ⟨⟨rfl, rfl⟩, ⟨rfl, by decide +kernel⟩, trivial⟩
    .left { now := 1000 } 1 (bytes symbolicBackend 7 ⟨.keyUpdateAck 1, 1, 0, some .wiped⟩)
    ⟨by decide +kernel, ⟨⟨[1]⟩, by decide +kernel⟩, ⟨0, .wiped, by decide +kernel⟩, .inl (by decide +kernel), rfl⟩
    (by unfold InWindow; decide +kernel)

/-- Both sides ask for an update, and each answers the request of the other before its answer arrives. The acknowledgement that the
peer has sent reaches a side that waits for it and reads packets of its peer, and is refused: the update stays pending, and the side
sends under a key under which its peer does not receive. -/
theorem keysMatch_false_after_crossing_updates :
    let q := runPair securePairCtx securePair
      [.call .left ⟨.requestKeyUpdate 1, { now := 1000 }⟩, .call .right ⟨.requestKeyUpdate 1, { now := 1000 }⟩,
        .deliver .right 0 ⟨[1]⟩ { now := 1000 }, .deliver .left 0 ⟨[1]⟩ { now := 1000 }]
    let data := bytes symbolicBackend 7 ⟨.keyUpdateAck 1, 2, 0, some .wiped⟩
    let r := processDatagram (securePairCtx.ctx .left) { now := 1000 } (q.node .left) (q.node .left).connection.remote data
    Linked securePair ∧ Acknowledges securePairCtx q .left { now := 1000 } 2 data ∧ InWindow q .left 2 ∧
      r.2 = .permissionDenied ∧ r.1.connection.keyUpdatePending = true ∧ ¬KeysMatch r.1 (q.node .right) := by
  intro q data r
  refine ⟨linked_securePair, ⟨by decide +kernel, ⟨⟨[1]⟩, by decide +kernel⟩, ⟨0, .wiped, by decide +kernel⟩,
    .inl (by decide +kernel), rfl⟩, by unfold InWindow; decide +kernel, by decide +kernel, by decide +kernel, fun hmt => ?_⟩
  have he : r.1.connection.secureChannel.sendKeyEpoch = 0 ∧
      (q.node .right).connection.secureChannel.receiveKeyEpoch = 1 := by decide +kernel
  exact absurd (he.1.symm.trans (hmt.sendEpoch.trans he.2)) (by decide)

end Libft.Networking
