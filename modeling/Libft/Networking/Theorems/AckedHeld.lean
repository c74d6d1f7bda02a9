import Libft.Networking.Lemmas.Holding
import Libft.Networking.Theorems.AckRanges
import Libft.Networking.Theorems.ReliableOrder

/-!
# What is acknowledged is held

A frame's number is recorded for the acknowledgement before anything decides what becomes of its payload, so that a fragment which is
turned away for want of room or memory is acknowledged all the same, and the sender forgets it. Where nothing is turned away, every
number that a side records is that of a frame it holds when the call ends; its acknowledgements say no more than what it recorded; and,
where no reliable record expires either and no connection is aborted, it still holds the frame of a packet that they take out of the sent
list of its peer, and does not lose it any more.
-/

namespace Libft.Networking

open Function Option List UInt64 Side Networking.Action Label

/-! ## Numbers of packets -/

/-- The acknowledgement that a packet carries. -/
def Packet.acknowledges : Packet → Option (UInt64 × List AckRange)
  | .frame _ top rs | .ack top rs => some (top, rs)
  | _ => none

section Steps

variable {Γ : Ctx} {c c' : Core} {l : Label} {p : Packet} {top : UInt64} {rs : List AckRange}

/-- A packet of the sent list was there before, or is the packet that the step sends. -/
theorem Step.sent_cases (h : Step Γ c l c') {x : SentPacket} (hx : x ∈ c'.sent) :
    x ∈ c.sent ∨ x.packetNumber = c.nextPacket ∧ l.packet c = some (.frame x.frame c.largest c.ranges) := by
  cases h with
  | transmit ds now lane frame tl data ch hl hs hd =>
    refine (mem_sent_transmit hx).imp_right ?_
    rintro ⟨-, rfl⟩
    exact ⟨rfl, rfl⟩
  | retransmit ds now i p data ch hp hs hd =>
    refine (mem_or_eq_of_mem_set hx).imp_right ?_
    rintro rfl
    exact ⟨rfl, rfl⟩
  | expireSent i p hp => exact .inl (mem_of_mem_eraseIdx hx)
  | abort => cases hx
  | acknowledge top rs => exact .inl (mem_of_mem_filter hx)
  | _ => exact .inl hx

/-- The number of the next packet moves on with every packet. -/
theorem Step.nextPacket_eq (h : Step Γ c l c') (hr : c.nextPacket.toNat + l.weight < 2 ^ 64) :
    c'.nextPacket.toNat = c.nextPacket.toNat + l.weight := by
  have hnx (hw : l.weight = 1) : (c.nextPacket + 1).toNat = c.nextPacket.toNat + l.weight := by
    rw [UInt64.toNat_add, UInt64.toNat_one, hw, Nat.mod_eq_of_lt]
    omega
  cases h <;> first | rfl | exact hnx rfl

/-- Only a frame that arrives changes what is acknowledged. -/
theorem Step.ranges_eq (h : Step Γ c l c') (hl : ∀ num, l ≠ .record num) : c'.largest = c.largest ∧ c'.ranges = c.ranges := by
  cases h with
  | record num => exact absurd rfl (hl num)
  | _ => exact ⟨rfl, rfl⟩

/-- A packet acknowledges what the connection has recorded. -/
theorem Step.acknowledges_eq (h : Step Γ c l c') (hp : l.packet c = some p)
    (ha : p.acknowledges = some (top, rs)) : top = c.largest ∧ rs = c.ranges := by
  cases h with
  | emit q ds data ch hm hd =>
    obtain rfl : q = p := some.inj hp
    cases q with
    | frame => exact hm.elim
    | ack =>
      obtain ⟨rfl, rfl⟩ := Prod.mk.inj (some.inj ha)
      exact hm
    | _ => cases ha
  | _ =>
    first
    | cases hp; done
    | obtain rfl := some.inj hp
      first
      | cases ha; done
      | obtain ⟨rfl, rfl⟩ := Prod.mk.inj (some.inj ha)
        exact ⟨rfl, rfl⟩

theorem Step.payload_le (h : Step Γ c l c') {frame : OutgoingFrame}
    (hp : l.packet c = some (.frame frame top rs)) : frame.payload.length ≤ 65535 := by
  cases h with
  | emit q ds data ch hm hd =>
    cases hp
    exact hm.elim
  | transmit _ _ _ _ _ _ _ _ hs _ | retransmit _ _ _ _ _ _ _ hs _ =>
    cases hp
    exact hs
  | _ => cases hp

/-- A step that sends a packet uses up a number. -/
theorem Label.weight_of_packet (hp : l.packet c = some p) : l.weight = 1 := by
  cases l <;> first | rfl | cases hp

end Steps

/-! ## Acknowledgements that are backed -/

/-- A number that its sender used, and under which nothing waits at the sender but a frame of a kind. -/
structure Known (sender : Core) (H : OutgoingFrame → Prop) (num : UInt64) : Prop where
  ne_zero : num ≠ 0
  used : num < sender.nextPacket
  held : ∀ x ∈ sender.sent, x.packetNumber = num → H x.frame

/-- An acknowledgement covers known numbers only. -/
def Backed (sender : Core) (H : OutgoingFrame → Prop) (top : UInt64) (rs : List AckRange) : Prop :=
  ∃ S, Records S top rs ∧ ∀ num ∈ S, Known sender H num

/-- A packet that a side sent: if it waits for its acknowledgement it carries the frame that waits, and what it acknowledges is
backed. -/
structure Sound (c peer : Core) (H : OutgoingFrame → Prop) (d : Dispatch) : Prop where
  ne_zero : d.number ≠ 0
  used : d.number < c.nextPacket
  frame : ∀ x ∈ c.sent, x.packetNumber = d.number → ∃ top rs, d.packet = .frame x.frame top rs
  payload_le : ∀ frame top rs, d.packet = .frame frame top rs → frame.payload.length ≤ 65535
  acks : ∀ top rs, d.packet.acknowledges = some (top, rs) → Backed peer H top rs

section Backing

variable {Γ : Ctx} {c c' peer peer' : Core} {l : Label} {H H' : OutgoingFrame → Prop} {num top : UInt64}
  {rs : List AckRange} {d : Dispatch}

theorem Known.mono (h : Known peer H num) (hH : ∀ f, H f → H' f) : Known peer H' num :=
  ⟨h.ne_zero, h.used, fun x hx hn => hH _ (h.held x hx hn)⟩

/-- The sender takes a step: what it sends has a new number. -/
theorem Known.step (h : Known c H num) (hs : Step Γ c l c') (hle : c.nextPacket ≤ c'.nextPacket) : Known c' H num := by
  refine ⟨h.ne_zero, UInt64.lt_of_lt_of_le h.used hle, fun x hx hn => ?_⟩
  rcases hs.sent_cases hx with ho | ⟨hw, -⟩
  · exact h.held x ho hn
  · exact absurd (hn.symm.trans hw ▸ h.used) (UInt64.lt_irrefl _)

theorem Backed.imp (h : Backed peer H top rs) (hi : ∀ num, Known peer H num → Known peer' H' num) :
    Backed peer' H' top rs :=
  let ⟨S, hS, hk⟩ := h
  ⟨S, hS, fun num hn => hi num (hk num hn)⟩

/-- One more number is recorded. -/
theorem Backed.record (h : Backed peer H c.largest c.ranges) (hk : Known peer H num) :
    Backed peer H (c.record num).largest (c.record num).ranges := by
  obtain ⟨S, hS, ha⟩ := h
  have hi : ∀ n ∈ insert num S, Known peer H n := by
    rintro n (rfl | hn)
    · exact hk
    · exact ha n hn
  refine ⟨insert num S, ?_, hi⟩
  have hr := Records.recordReceived (c := { largestReceived := c.largest, receivedRanges := c.ranges }) (n := num) hS
    fun hw => (hi 0 hw.1).ne_zero rfl
  have hc := core_recordReceived num { connection := { largestReceived := c.largest, receivedRanges := c.ranges } }
  have hl := congrArg Core.largest hc
  have hs := congrArg Core.ranges hc
  simp only [core, Node.modify] at hl hs
  rw [hl, hs] at hr
  exact hr

theorem Sound.imp (h : Sound c peer H d) (hi : ∀ num, Known peer H num → Known peer' H' num) : Sound c peer' H' d :=
  { h with acks := fun top rs ha => (h.acks top rs ha).imp hi }

/-- The side that sent it takes a step. -/
theorem Sound.step (h : Sound c peer H d) (hs : Step Γ c l c') (hle : c.nextPacket ≤ c'.nextPacket) : Sound c' peer H d := by
  refine ⟨h.ne_zero, UInt64.lt_of_lt_of_le h.used hle, fun x hx hn => ?_, h.payload_le, h.acks⟩
  rcases hs.sent_cases hx with ho | ⟨hw, -⟩
  · exact h.frame x ho hn
  · exact absurd (hn.symm.trans hw ▸ h.used) (UInt64.lt_irrefl _)

end Backing

/-- What two sides keep in which nothing is turned away, with the frames that each holds. -/
structure Backs (B : CryptoBackend) (H : Side → OutgoingFrame → Prop) (cs : Side → Core) : Prop where
  pos : ∀ s, (cs s).nextPacket ≠ 0
  sent : ∀ s, ∀ x ∈ (cs s).sent, x.packetNumber ≠ 0 ∧ x.packetNumber < (cs s).nextPacket
  recorded : ∀ s, Backed (cs s.other) (H s) (cs s).largest (cs s).ranges
  wired : ∀ s, (cs s).Wired B (Sound (cs s) (cs s.other) (H s))

namespace Backs

variable {Γ : PairCtx} {H H' : Side → OutgoingFrame → Prop} {cs : Side → Core}

theorem mono {B : CryptoBackend} (h : Backs B H cs) (hH : ∀ s f, H s f → H' s f) : Backs B H' cs where
  pos := h.pos
  sent := h.sent
  recorded s := (h.recorded s).imp fun _ hk => hk.mono (hH s)
  wired s := (h.wired s).mono fun _ hd => hd.imp fun _ hk => hk.mono (hH s)

/-- One side takes a step. The number that it records, if it records one, must be known. -/
theorem step (h : Backs Γ.crypto H cs) {s : Side} {l : Label} {c' : Core}
    (hrm : (cs s).nextPacket.toNat + l.weight < 2 ^ 64) (hs : Step (Γ.ctx s) (cs s) l c')
    (hc : ∀ num, l = .record num → Known (cs s.other) (H s) num) : Backs Γ.crypto H (update cs s c') := by
  have hnx := hs.nextPacket_eq hrm
  have hle : (cs s).nextPacket ≤ c'.nextPacket := le_iff_toNat_le.2 (by omega)
  have hpos : (cs s).nextPacket.toNat ≠ 0 := fun hz => h.pos s (UInt64.toNat_inj.1 hz)
  have ho : update cs s c' s.other = cs s.other := update_of_ne (other_ne s) _ _
  -- a packet that the step sends has the next number, which no packet that waits has
  have hfr {x : SentPacket} (hx : x ∈ (cs s).sent) : x.packetNumber ≠ (cs s).nextPacket := fun heq =>
    absurd (heq ▸ (h.sent s x hx).2) (UInt64.lt_irrefl _)
  have hnew (p : Packet) (hp : l.packet (cs s) = some p) :
      Sound c' (cs s.other) (H s) ((cs s).dispatch p) := by
    have hwg := weight_of_packet hp
    refine ⟨h.pos s, lt_iff_toNat_lt.2 ?_, fun x hx hn => ?_, fun frame top rs ht => ?_, fun top rs ha => ?_⟩
    · show (cs s).nextPacket.toNat < c'.nextPacket.toNat
      omega
    · rcases hs.sent_cases hx with hold | ⟨-, hf⟩
      · exact absurd hn (hfr hold)
      · exact ⟨_, _, some.inj (hp.symm.trans hf)⟩
    · obtain rfl : p = .frame frame top rs := ht
      exact hs.payload_le hp
    · obtain ⟨rfl, rfl⟩ := hs.acknowledges_eq hp ha
      exact h.recorded s
  refine ⟨s.both ?_ ?_, s.both ?_ ?_, s.both ?_ ?_, s.both ?_ ?_⟩
  · rw [update_self]
    intro hz
    rw [hz, UInt64.toNat_zero] at hnx
    omega
  · rw [ho]
    exact h.pos s.other
  · rw [update_self]
    intro x hx
    rcases hs.sent_cases hx with hold | ⟨hm, hf⟩
    · exact ⟨(h.sent s x hold).1, UInt64.lt_of_lt_of_le (h.sent s x hold).2 hle⟩
    · have hwg := weight_of_packet hf
      rw [hm]
      exact ⟨h.pos s, lt_iff_toNat_lt.2 (by omega)⟩
  · rw [ho]
    exact h.sent s.other
  · rw [ho, update_self]
    by_cases hl : ∃ num, l = .record num
    · obtain ⟨num, rfl⟩ := hl
      cases hs
      exact (h.recorded s).record (hc num rfl)
    · obtain ⟨hlr, hrgs⟩ := hs.ranges_eq fun num heq => hl ⟨num, heq⟩
      rw [hlr, hrgs]
      exact h.recorded s
  · have hr := h.recorded s.other
    rw [other_other] at hr
    rw [ho, other_other, update_self]
    exact hr.imp fun _ hk => hk.step hs hle
  · rw [ho, update_self]
    exact ((h.wired s).mono fun _ hd => hd.step hs hle).step hs hnew
  · have hw := h.wired s.other
    rw [other_other] at hw
    rw [ho, other_other, update_self]
    exact hw.mono fun _ hd => hd.imp fun _ hk => hk.step hs hle

end Backs

/-! ## Runs -/

/-- Whether a call neither turns a frame away nor gives one up: there is memory for all that a frame may need, and a fragment that would
open a record finds room for it; no record of a reliable message has expired, and the connection is not aborted. -/
def keepsFrame (Γ : Ctx) (n : Node) (i : Input) : Bool :=
  match i.call with
  | .process _ data => i.env.allocates && (frameAt Γ i.env n data).all (findsRoom Γ.cfg n.connection)
  | .advance | .poll => !isIdle Γ.cfg i.env.now n.connection &&
      n.connection.reassembly.all fun r => !isReliable r.delivery || decide (i.env.now < r.expiresAt)
  | .close _ _ aborts => !aborts
  | _ => true

/-- Nothing is turned away or given up: the sides take turns, no frame is refused for want of memory or of room, no reliable record
expires, no connection is aborted, and the packet numbers are not about to wrap. -/
structure KeepsFrames (Γ : PairCtx) (p : Pair) (a : Action) : Prop where
  turns : TakesTurns p a
  keeps : (a.input p).all (keepsFrame (Γ.ctx a.side) (p.node a.side)) = true
  numbers : (p.node a.side).connection.nextPacket.toNat + 8 < 2 ^ 64

/-- A message below the counter of its channel was delivered. -/
theorem InTurnOn.oldDelivered {mine theirs : List QueuedMessage} {c : Core} {m : QueuedMessage}
    (h : InTurnOn mine theirs c m.options.channel) (hm : m ∈ theirs) (hr : isReliable m.options.delivery = true) : OldDelivered m c := by
  intro hl
  have hmem : m.numbered ∈ (queuedOn m.options.channel theirs).map QueuedMessage.numbered :=
    mem_map_of_mem (mem_filter.2 ⟨hm, decide_eq_true ⟨rfl, hr⟩⟩)
  obtain ⟨M, hM, heq⟩ := mem_map.1 (Libft.InTurn.mem_of_lt h hmem (lt_iff_toNat_lt.1 hl))
  obtain ⟨hM, hon⟩ := mem_filter.1 hM
  obtain ⟨hch, hd⟩ := of_decide_eq_true hon
  obtain ⟨hs, hy⟩ := Prod.mk.inj heq
  exact ⟨M, hM, (of_decide_eq_true hd).trans (of_decide_eq_true hr).symm, hch, fun _ => hs, hy⟩

section Runs

variable {Γ : PairCtx} {p : Pair} {a : Action}

variable {source : Endpoint} {data : Bytes} {e : Env} {x : SentPacket}

theorem cores_pairStep_process (hi : a.input p = some ⟨.process source data, e⟩) :
    (pairStep Γ p a).cores a.side = core (processDatagram (Γ.ctx a.side) e (p.node a.side) source data).1 := by
  simp only [pairStep, hi, Pair.cores, update_self]
  rfl

/-- A reliable frame that a side reads is held when the call ends. -/
theorem holds_of_frameOf (hp : Ordered Γ p.cores p.queued) (hB : Γ.crypto.Ideal) (ha : KeepsFrames Γ p a)
    (hi : a.input p = some ⟨.process source data, e⟩) {f : FrameBody} {F : OutgoingFrame}
    (hf : FrameOf (Γ.ctx a.side) e (p.node a.side) source data F.delivery f) (hF : f.piece = F.piece)
    (hrl : isReliable F.delivery = true) : ((pairStep Γ p a).cores a.side).Holds F := by
  obtain ⟨ds, he⟩ := mem_wire hi rfl
  obtain ⟨m, hm, hc⟩ := hp.carries hB rfl he hf
  rw [hF] at hc
  have hk := ha.keeps
  rw [hi, all_some, keepsFrame, Bool.and_eq_true, hf.frameAt_eq, all_some] at hk
  have hm' : isReliable m.options.delivery = true := hc.delivery_eq ▸ hrl
  have hh := holds_processDatagram hf hk.1 hc hrl ((hp.turns a.side m.options.channel).oldDelivered hm hm') hF
    (fun r hr hid => hp.reassembles hm hr hid) hk.2
  rw [cores_pairStep_process hi]
  exact hh

/-- A side holds a reliable frame that carries a piece of a message its peer queued. -/
structure Keeps (Γ : PairCtx) (cs : Side → Core) (queued : Side → List QueuedMessage) (s : Side) (F : OutgoingFrame) : Prop where
  reliable : isReliable F.delivery = true
  carried : ∃ m ∈ queued s.other, Carries (Γ.cfg s.other).payloadCapacity m F.delivery F.piece
  holds : (cs s).Holds F

/-- The steps of an action give up nothing of what a side holds. -/
theorem KeepsFrames.retains (ha : KeepsFrames Γ p a) {i : Input} (hi : a.input p = some i) {l : Label}
    (hl : CallLabel (Γ.ctx a.side) (p.node a.side) i l) : l.Retains := by
  have hk := ha.keeps
  rw [hi, all_some] at hk
  obtain ⟨call, e⟩ := i
  cases l with
  | abort qb =>
    cases call with
    | advance | poll =>
      simp only [keepsFrame, Bool.and_eq_true, Bool.not_eq_true'] at hk
      exact absurd (hk.1.symm.trans hl.1) nofun
    | close reason text aborts =>
      obtain rfl : aborts = true := hl.1
      cases hk
    | send => cases hl
    | _ => exact hl.elim
  | lose M =>
    obtain ⟨sr, data, hcl, j, hfl⟩ := hl.heard rfl
    exact absurd ((ha.turns.released hi hcl j).symm.trans hfl) nofun
  | complete settled =>
    obtain ⟨sr, data, hcl, hst⟩ := hl.heard rfl
    obtain rfl : call = .process sr data := hcl
    simp only [keepsFrame, Bool.and_eq_true] at hk
    obtain ⟨hch, -, hr, hb, -⟩ := Env.ok_of_allocates hk.1
    exact hst hch hb hr
  | expireRecords gone =>
    cases call with
    | advance | poll =>
      simp only [keepsFrame, Bool.and_eq_true, List.all_eq_true] at hk
      intro r hr
      obtain ⟨hm, hle⟩ := hl r hr
      have hno := hk.2 r hm
      simpa [UInt64.not_lt.2 hle] using hno
    | send => cases hl
    | _ => exact hl.elim
  | _ => trivial

/-- What a side holds it still holds after an action that gives up nothing. -/
theorem Keeps.pairStep {s : Side} {F : OutgoingFrame} (h : Keeps Γ p.cores p.queued s F) (hp : Ordered Γ p.cores p.queued)
    (hB : Γ.crypto.Ideal) (ha : KeepsFrames Γ p a) : Keeps Γ (pairStep Γ p a).cores (pairStep Γ p a).queued s F := by
  refine (pairStep_invariant (I := fun cs queued => (Ordered Γ cs queued ∧ (cs a.side).secure = (p.cores a.side).secure) ∧
    Keeps Γ cs queued s F) ⟨⟨hp, rfl⟩, h⟩ ?_ ?_).2
  · rintro i hi cs l c' ⟨⟨hc, hsm⟩, hk⟩ ho hs hl hq
    refine ⟨hc.step hsm ho hi hl hB ha.turns hs hq, hk.reliable, hk.carried, ?_⟩
    by_cases hside : s = a.side
    · subst hside
      obtain ⟨m, hm, hF⟩ := hk.carried
      have hm' : isReliable m.options.delivery = true := hF.delivery_eq ▸ hk.reliable
      rw [update_self]
      refine hk.holds.step hs (ha.retains hi hl) hF hk.reliable (fun r hr hid => hc.reassembles hm hr hid) ?_
        ((hc.turns a.side m.options.channel).oldDelivered hm hm')
      rintro f rfl hid
      obtain ⟨dlv, m', hm1, hf⟩ := hc.told hsm ho hi hl hB
      obtain rfl := (hc.sources a.side.other).unique m' hm1 m hm (hf.messageId.symm.trans hid)
      exact ⟨dlv, hf⟩
    · rw [update_of_ne hside]
      exact hk.holds
  · intro data o e hi c' hs
    refine ⟨⟨hp.enqueue hs (ha.turns.send hi).1 (ha.turns.send hi).2, by rw [update_self]; exact hs.secure_eq⟩, h.reliable, ?_, ?_⟩
    · obtain ⟨m, hm, hF⟩ := h.carried
      refine ⟨m, ?_, hF⟩
      by_cases hside : s.other = a.side
      · rw [hside, update_self]
        exact mem_append_left _ (hside ▸ hm)
      · rwa [update_of_ne hside]
    · by_cases hside : s = a.side
      · subst hside
        rw [update_self]
        cases hs
        exact h.holds
      · rw [update_of_ne hside]
        exact h.holds

section

variable (h : Backs Γ.crypto (Keeps Γ p.cores p.queued) p.cores) (hp : Ordered Γ p.cores p.queued) (hB : Γ.crypto.Ideal)

include h hp hB

/-- The frame that waits under the number of a frame which a side reads is this frame. -/
theorem Backs.known (ha : KeepsFrames Γ p a) {e : Env}
    (hi : a.input p = some ⟨.process source data, e⟩) {dlv : Delivery} {f : FrameBody}
    (hf : FrameOf (Γ.ctx a.side) e (p.node a.side) source data dlv f) :
    Known (p.cores a.side.other) (Keeps Γ (pairStep Γ p a).cores (pairStep Γ p a).queued a.side) f.packetNumber := by
  obtain ⟨ds, he⟩ := mem_wire hi rfl
  obtain ⟨d, frame, top, rs, hd, ht, rfl, hpc, hm, -⟩ := (h.wired a.side.other).frame (Γ := Γ.ctx a.side) hB
    (hp.secure a.side) he (fun d frame top rs hd => hd.payload_le frame top rs) hf
  rw [hm]
  refine ⟨hd.ne_zero, hd.used, fun x hx hn => ?_⟩
  obtain ⟨l', r', hx'⟩ := hd.frame x hx hn
  obtain ⟨rfl, -, -⟩ := Packet.frame.inj (ht.symm.trans hx')
  obtain ⟨hrl, hc⟩ := (hp.sources a.side.other).sent x hx
  refine ⟨hrl, ?_, holds_of_frameOf hp hB ha hi hf hpc hrl⟩
  simpa only [Networking.pairStep, hi, update_of_ne (other_ne a.side)] using hc

/-- An action that turns nothing away and gives nothing up. -/
theorem Backs.pairStep (ha : KeepsFrames Γ p a) :
    Backs Γ.crypto (Keeps Γ (pairStep Γ p a).cores (pairStep Γ p a).queued) (pairStep Γ p a).cores := by
  have hs := h.mono fun s f hk => hk.pairStep hp hB ha
  refine (pairStep_budget (I := fun m cs _ => (cs a.side).nextPacket.toNat + m < 2 ^ 64 ∧
    Backs Γ.crypto (Keeps Γ (Networking.pairStep Γ p a).cores (Networking.pairStep Γ p a).queued) cs)
    (fun cs qs m k hmk hI => ⟨by have := hI.1; omega, hI.2⟩) ⟨ha.numbers, hs⟩ ?_ ?_).2
  · rintro i hi m cs l c' ⟨hr, hc⟩ ho hst hl -
    have hnx := hst.nextPacket_eq (by omega)
    refine ⟨by rw [update_self]; omega, hc.step (by omega) hst ?_⟩
    rintro num rfl
    obtain ⟨source, data, hcl, dl, f, hf, rfl⟩ := hl.heard rfl
    obtain ⟨call, e⟩ := i
    obtain rfl : call = .process source data := hcl
    rw [ho]
    exact h.known hp hB ha hi hf
  · intro data o e hi c' hst
    have hr : (p.cores a.side).nextPacket.toNat + 8 < 2 ^ 64 := ha.numbers
    have hw : (enqueue o data).weight = 0 := rfl
    have hnx := hst.nextPacket_eq (by omega)
    exact ⟨by rw [update_self]; omega, hs.step (by omega) hst nofun⟩

/-- An acknowledgement that a side reads is one that its peer backed. -/
theorem Backs.backed {e : Env} (hi : a.input p = some ⟨.process source data, e⟩)
    {top : UInt64} {rs : List (UInt16 × UInt16)}
    (hl : ProcessLabel (Γ.ctx a.side) e (p.node a.side) source data (.acknowledge top rs)) :
    ∃ rec, Backed (p.cores a.side) (Keeps Γ p.cores p.queued a.side.other) top rec ∧ rs = rec.map (ackDelta top) := by
  obtain ⟨ds, he⟩ := mem_wire hi rfl
  have hw := h.wired a.side.other
  rw [other_other] at hw
  rcases hl with ⟨dl, f, hf, rfl, rfl⟩ | ⟨flag, pkt, body, ho, hrd, rfl, rfl⟩
  · obtain ⟨d, frame, top, rec, hd, hpkt, -, -, -, hrd⟩ := hw.frame (Γ := Γ.ctx a.side) hB (hp.secure a.side)
      he (fun d frame top rs hd => hd.payload_le frame top rs) hf
    obtain ⟨S, hS, hk⟩ := hd.acks top rec (by rw [hpkt]; rfl)
    rw [readFrame_framePacket _ _ _ _ _ hS.length_le fun r hr => (hS.madeOf r hr).valid] at hrd
    obtain rfl := some.inj hrd
    exact ⟨rec, ⟨S, hS, hk⟩, rfl⟩
  · obtain ⟨d, hd, ht, -, rfl⟩ := hw.opens (Γ := Γ.ctx a.side) hB (hp.secure a.side) he ho rfl (.inr ⟨nofun, nofun⟩)
    cases hpkt : d.packet with
    | ack top rec =>
      obtain ⟨S, hS, hk⟩ := hd.acks top rec (by rw [hpkt]; rfl)
      rw [Dispatch.plain, hpkt, Packet.encode, readAck_encode _ _ _ _ hS.length_le fun r hr => (hS.madeOf r hr).valid] at hrd
      obtain rfl := some.inj hrd
      exact ⟨rec, ⟨S, hS, hk⟩, rfl⟩
    | _ =>
      rw [hpkt] at ht
      cases ht

end

/-- What a backed acknowledgement takes out of the sent list is held. -/
theorem Backed.held {c : Core} {H : OutgoingFrame → Prop} {top : UInt64} {rec : List AckRange}
    (h : Backed c H top rec) (hx : x ∈ c.sent) (hz : x.packetNumber ≠ 0)
    (ha : isAcknowledged top (rec.map (ackDelta top)) x.packetNumber = true) : H x.frame := by
  obtain ⟨S, hS, hk⟩ := h
  have hm : x.packetNumber ∈ S := by
    rcases (isAcknowledged_iff hS x.packetNumber).1 ha with heq | ⟨-, range, hrg, hs, -⟩
    · -- the largest number is in the first range, unless nothing was recorded and it is zero
      rcases S.eq_empty_or_nonempty with hn | hne
      · rcases hS.head with hh | ⟨-, -, hl⟩
        · obtain ⟨r, hr, -⟩ := map_eq_some_iff.1 hh
          have := (hS.madeOf r (mem_of_mem_head? hr)).end_mem
          rw [hn] at this
          exact this.elim
        · exact absurd (heq.trans hl) hz
      · obtain ⟨r, hr, he⟩ := hS.exists_top hne
        rw [heq, ← he]
        exact (hS.madeOf r hr).end_mem
    · rw [← hs]
      exact (hS.madeOf range hrg).start_mem
  exact (hk _ hm).held x hx rfl

/-- A packet that a datagram takes out of the sent list carries a frame that the peer holds. -/
theorem Backs.held (h : Backs Γ.crypto (Keeps Γ p.cores p.queued) p.cores) (hp : Ordered Γ p.cores p.queued)
    (hB : Γ.crypto.Ideal) (hi : a.input p = some ⟨.process source data, e⟩) (hx : x ∈ (p.cores a.side).sent)
    (ho : x ∉ ((Networking.pairStep Γ p a).cores a.side).sent) :
    Keeps Γ p.cores p.queued a.side.other x.frame := by
  rw [cores_pairStep_process hi] at ho
  refine (performs_processDatagram.invariant (I := fun c => x ∈ c.sent ∨ Keeps Γ p.cores p.queued a.side.other x.frame)
    (fun c l c' hs hl hc => ?_) (.inl hx)).resolve_left ho
  rcases hc with hc | hh
  · cases hs with
    | acknowledge top rs =>
      obtain ⟨r, hb, rfl⟩ := h.backed hp hB hi hl
      by_cases hack : isAcknowledged top (r.map (ackDelta top)) x.packetNumber = true
      · exact .inr (hb.held hx (h.sent a.side x hx).1 hack)
      · exact .inl (mem_filter.2 ⟨hc, by simpa using hack⟩)
    | _ => first | exact .inl hc | exact hl.elim
  · exact .inr hh

end Runs

/-- Two connections that were just established, and have neither sent nor received a frame. -/
structure Unheard (p : Pair) : Prop extends Fresh p where
  nextPacket : ∀ s, (p.node s).connection.nextPacket ≠ 0
  largestReceived : ∀ s, (p.node s).connection.largestReceived = 0
  receivedRanges : ∀ s, (p.node s).connection.receivedRanges = []

theorem Unheard.backs {B : CryptoBackend} {p : Pair} (h : Unheard p) (H : Side → OutgoingFrame → Prop) : Backs B H p.cores where
  pos := h.nextPacket
  sent s x hx := by
    rw [show (p.cores s).sent = [] from h.sent s] at hx
    cases hx
  recorded s := by
    refine ⟨∅, ?_, nofun⟩
    rw [show (p.cores s).largest = 0 from h.largestReceived s, show (p.cores s).ranges = [] from h.receivedRanges s]
    exact Records.empty
  wired s entry he := .inl (h.silent s entry he)

/-- What a run that turns nothing away and gives nothing up keeps. -/
theorem backs_runPair {Γ : PairCtx} (hB : Γ.crypto.Ideal) {p : Pair} (hp : Unheard p) (act : List Action)
    (h : Meets (pairStep Γ) (KeepsFrames Γ) p act) :
    Ordered Γ (runPair Γ p act).cores (runPair Γ p act).queued ∧
      Backs Γ.crypto (Keeps Γ (runPair Γ p act).cores (runPair Γ p act).queued) (runPair Γ p act).cores :=
  Meets.invariant (I := fun p => Ordered Γ p.cores p.queued ∧ Backs Γ.crypto (Keeps Γ p.cores p.queued) p.cores)
    (fun _ _ hp ha => ⟨hp.1.pairStep hB ha.turns, hp.2.pairStep hp.1 hB ha⟩) ⟨hp.toFresh.ordered, hp.backs _⟩ h

/-- A run that gives nothing up: what a side holds at its beginning it holds at its end. -/
theorem Keeps.runPair {Γ : PairCtx} (hB : Γ.crypto.Ideal) {p : Pair} {s : Side} {F : OutgoingFrame} {act : List Action}
    (hp : Ordered Γ p.cores p.queued) (hk : Keeps Γ p.cores p.queued s F) (h : Meets (Networking.pairStep Γ) (KeepsFrames Γ) p act) :
    ((Networking.runPair Γ p act).cores s).Holds F :=
  (Meets.invariant (I := fun p => Ordered Γ p.cores p.queued ∧ Keeps Γ p.cores p.queued s F)
    (fun _ _ hp ha => ⟨hp.1.pairStep hB ha.turns, hp.2.pairStep hp.1 hB ha⟩) ⟨hp, hk⟩ h).2.holds

/-- In every run that turns nothing away and gives nothing up, with any loss, duplication and reordering: a packet that a datagram takes
out of the sent list of a side carries a reliable frame that its peer holds then, in a record, among the messages that wait, or in a
message that was delivered. However such a run goes on, the peer does not lose it. -/
theorem held_of_acknowledged (Γ : PairCtx) (hB : Γ.crypto.Ideal) (p : Pair) (hp : Unheard p) (actions : List Action)
    (h : Meets (pairStep Γ) (KeepsFrames Γ) p actions) (s : Side) (index : Nat) (source : Endpoint) (env : Env) :
    let q := runPair Γ p actions
    let q' := pairStep Γ q (.deliver s index source env)
    ∀ x ∈ (q.node s).connection.sent, x ∉ (q'.node s).connection.sent →
      isReliable x.frame.delivery = true ∧ (q.cores s.other).Holds x.frame ∧
        ∀ more, Meets (pairStep Γ) (KeepsFrames Γ) q (.deliver s index source env :: more) →
          ((runPair Γ q' more).cores s.other).Holds x.frame := by
  intro q q' x hx ht
  obtain ⟨ho, hb⟩ := backs_runPair hB hp actions h
  cases hi : (Action.deliver s index source env).input q with
  | none =>
    have hs : q' = q := by simp only [q', pairStep, hi]
    exact absurd (hs ▸ hx) ht
  | some i =>
    obtain ⟨ent, -, rfl⟩ := map_eq_some_iff.1 hi
    have hk := hb.held ho hB (a := .deliver s index source env) hi hx ht
    refine ⟨hk.reliable, hk.holds, fun more hmt => ?_⟩
    have hkept := hk.runPair hB ho hmt
    exact hkept

theorem unheard_securePair : Unheard securePair where
  toFresh := fresh_securePair
  nextPacket _ := show (1 : UInt64) ≠ 0 by decide
  largestReceived _ := rfl
  receivedRanges _ := rfl

/-- A message is sent, arrives and is acknowledged: its packet leaves the sent list, and the peer had delivered it. -/
theorem held_after_acknowledged_message :
    let actions : List Action := [.call .left ⟨.send [1] {}, { now := 1000 }⟩, .call .left ⟨.advance, { now := 1000 }⟩,
      .deliver .right 1 ⟨[1]⟩ { now := 1000 }, .call .right ⟨.advance, { now := 1000 }⟩]
    let q := runPair securePairCtx securePair actions
    let q' := pairStep securePairCtx q (.deliver .left 1 ⟨[1]⟩ { now := 1000 })
    ((q.node .left).connection.sent.length = 1 ∧ (q'.node .left).connection.sent = []) ∧
      ∀ x ∈ (q.node .left).connection.sent, x ∉ (q'.node .left).connection.sent →
        isReliable x.frame.delivery = true ∧ (q.cores Side.left.other).Holds x.frame ∧
          ∀ more, Meets (pairStep securePairCtx) (KeepsFrames securePairCtx) q (.deliver .left 1 ⟨[1]⟩ { now := 1000 } :: more) →
            ((runPair securePairCtx q' more).cores Side.left.other).Holds x.frame :=
  ⟨by decide +kernel, held_of_acknowledged securePairCtx symbolicBackend_ideal securePair unheard_securePair
    [.call .left ⟨.send [1] {}, { now := 1000 }⟩, .call .left ⟨.advance, { now := 1000 }⟩,
      .deliver .right 1 ⟨[1]⟩ { now := 1000 }, .call .right ⟨.advance, { now := 1000 }⟩]
    ⟨⟨⟨by decide +kernel, fun _ => by decide +kernel⟩, by decide +kernel, by decide +kernel⟩,
      ⟨trivial, by decide +kernel, by decide +kernel⟩, ⟨fun _ => rfl, by decide +kernel, by decide +kernel⟩,
      ⟨trivial, by decide +kernel, by decide +kernel⟩, trivial⟩ .left 1 ⟨[1]⟩ { now := 1000 }⟩

/-- Two transports with small datagrams and room for one record. -/
def tightPairCtx : PairCtx :=
  ⟨symbolicBackend, fun _ => { defaultConfig with
    maximumDatagramSize := 110
    maximumReassemblyMessages := 1
    datagramSize_ok := by decide
    reassemblyMessages_ok := by decide }⟩

/-- Two messages of two fragments each are sent, and the first fragment of each arrives. The second finds no room for its record, and is
acknowledged all the same: the packet that carried it leaves the sent list, and the peer does not hold it. -/
theorem held_false_after_refused_fragment :
    let actions : List Action := [.call .left ⟨.send (List.replicate 30 1) {}, { now := 1000 }⟩,
      .call .left ⟨.send (List.replicate 30 2) {}, { now := 1000 }⟩, .call .left ⟨.advance, { now := 1000 }⟩,
      .call .left ⟨.advance, { now := 1010 }⟩, .call .left ⟨.advance, { now := 1020 }⟩,
      .deliver .right 1 ⟨[1]⟩ { now := 1030 }, .deliver .right 3 ⟨[1]⟩ { now := 1030 },
      .call .right ⟨.advance, { now := 1030 }⟩]
    let q := runPair tightPairCtx securePair actions
    let q' := pairStep tightPairCtx q (.deliver .left 1 ⟨[1]⟩ { now := 1030 })
    Unheard securePair ∧ ∃ x ∈ (q.node .left).connection.sent, x ∉ (q'.node .left).connection.sent ∧ x.packetNumber = 4 ∧
      ¬(q.cores Side.left.other).Holds x.frame :=
  ⟨unheard_securePair, by decide +kernel⟩

end Libft.Networking
