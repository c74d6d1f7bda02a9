import Libft.Lib.SharedCursor
import Libft.Networking.Lemmas.Origins

/-!
# The order of reliable messages

A channel has one counter for both directions: a reliable message that is sent takes its number from it, and the reliable message that
is delivered next must have its number. A side that sends on a channel while a message of its peer is on its way moves the counter past
that message, which is then dropped as old, and the one behind it is delivered in its place. As long as the sides take turns on a
channel, each delivers a prefix of what the other queued.
-/

namespace Libft.Networking

open Function List Side ReceivedMessage Networking.Core

/-! ## What was queued and what was delivered -/

/-- The reliable messages that were queued on a channel. -/
def queuedOn (channel : UInt32) (queued : List QueuedMessage) : List QueuedMessage :=
  queued.filter fun m => decide (m.options.channel = channel ∧ isReliable m.options.delivery = true)

/-- The reliable messages that were delivered on a channel. -/
def deliveredOn (channel : UInt32) (received : List ReceivedMessage) : List ReceivedMessage :=
  received.filter fun M => decide (M.channel = channel ∧ isReliable M.delivery = true)

section Channels

variable {channel : UInt32} {queued : List QueuedMessage} {received : List ReceivedMessage} {m : QueuedMessage} {M : ReceivedMessage}

theorem queuedOn_append_self (h : m.options.channel = channel ∧ isReliable m.options.delivery = true) :
    queuedOn channel (queued ++ [m]) = queuedOn channel queued ++ [m] := by
  rw [queuedOn, filter_append, filter_singleton, decide_eq_true h]
  rfl

theorem queuedOn_append_of_ne (h : ¬(m.options.channel = channel ∧ isReliable m.options.delivery = true)) :
    queuedOn channel (queued ++ [m]) = queuedOn channel queued := by
  rw [queuedOn, filter_append, filter_singleton, decide_eq_false h]
  exact append_nil _

theorem deliveredOn_append_self (h : M.channel = channel ∧ isReliable M.delivery = true) :
    deliveredOn channel (received ++ [M]) = deliveredOn channel received ++ [M] := by
  rw [deliveredOn, filter_append, filter_singleton, decide_eq_true h]
  rfl

theorem deliveredOn_append_of_ne (h : ¬(M.channel = channel ∧ isReliable M.delivery = true)) :
    deliveredOn channel (received ++ [M]) = deliveredOn channel received := by
  rw [deliveredOn, filter_append, filter_singleton, decide_eq_false h]
  exact append_nil _

end Channels

/-! ## Turns -/

/-- A queued message under its number. -/
def QueuedMessage.numbered (m : QueuedMessage) : ℕ × (UInt64 × Bytes) := (m.sequence.toNat, m.sequence, m.data)

/-- A received message with its number. -/
def ReceivedMessage.numbered (M : ReceivedMessage) : UInt64 × Bytes := (M.sequence, M.payload)

/-- A side that takes turns with its peer on a channel, with the messages each has queued. -/
def InTurnOn (mine theirs : List QueuedMessage) (c : Core) (channel : UInt32) : Prop :=
  Libft.InTurn (queuedOn channel mine).length ((queuedOn channel theirs).map QueuedMessage.numbered)
    ((deliveredOn channel c.received).map numbered) (c.cursor channel).toNat

/-- The numbers of a channel do not wrap. -/
def Unwrapped (mine theirs : List QueuedMessage) (channel : UInt32) : Prop :=
  1 + (queuedOn channel mine).length + (queuedOn channel theirs).length < 2 ^ 64

section Turns

variable {Γ : Ctx} {mine theirs : List QueuedMessage} {c c' : Core} {l : Label} {m : QueuedMessage}

/-- The peer's message that has the number of the counter is delivered. -/
theorem InTurnOn.accept (h : ∀ channel, InTurnOn mine theirs c channel) (hrm : ∀ channel, Unwrapped mine theirs channel)
    {M : ReceivedMessage} (hm : m ∈ theirs) (hof : IsOf m M) (hM : M.delivery = .reliableOrdered)
    (hnx : M.sequence = c.cursor M.channel) (channel : UInt32) :
    InTurnOn mine theirs { c.advance M.channel with received := c.received ++ [M] } channel := by
  have hr : isReliable M.delivery = true := by rw [hM]; rfl
  have hm' : isReliable m.options.delivery = true := hof.delivery_eq ▸ hr
  by_cases hch : M.channel = channel
  · subst hch
    have hmem : m.numbered ∈ (queuedOn M.channel theirs).map QueuedMessage.numbered :=
      mem_map_of_mem (mem_filter.2 ⟨hm, decide_eq_true ⟨hof.channel.symm, hm'⟩⟩)
    have hn : m.sequence.toNat = (c.cursor M.channel).toNat := by rw [← hof.sequence hm', hnx]
    have ha := Libft.InTurn.accept (h M.channel) hmem hn
    -- the counter is at most the number of messages, so that it does not wrap
    have hr' := hrm M.channel
    have hl := ha.length_le
    have hc := ha.cursor_eq
    rw [length_map] at hl
    rw [Unwrapped] at hr'
    have had : (c.cursor M.channel + 1).toNat = (c.cursor M.channel).toNat + 1 := by
      rw [UInt64.toNat_add, UInt64.toNat_one, Nat.mod_eq_of_lt]
      omega
    unfold InTurnOn
    show Libft.InTurn _ _ ((deliveredOn M.channel (c.received ++ [M])).map numbered)
      (Function.update c.cursor M.channel (c.cursor M.channel + 1) M.channel).toNat
    rw [update_self, had, deliveredOn_append_self ⟨rfl, hr⟩, map_append]
    have hs : M.numbered = m.numbered.2 := by
      rw [numbered, QueuedMessage.numbered, hof.sequence hm', hof.payload]
    rw [map_singleton, hs]
    exact ha
  · unfold InTurnOn
    show Libft.InTurn _ _ ((deliveredOn channel (c.received ++ [M])).map numbered)
      (Function.update c.cursor M.channel (c.cursor M.channel + 1) channel).toNat
    rw [update_of_ne (Ne.symm hch), deliveredOn_append_of_ne fun hand => hch hand.1]
    exact h channel

/-- A step that queues nothing and loses nothing. -/
theorem InTurnOn.step {cap : Nat} (h : ∀ channel, InTurnOn mine theirs c channel)
    (hr : ∀ channel, Unwrapped mine theirs channel) (hs : Sinks cap theirs c) (hst : Step Γ c l c')
    (ht : Told cap theirs l) (hl : ∀ opt data, l ≠ .enqueue opt data) (hls : ∀ M, l ≠ .lose M)
    (channel : UInt32) : InTurnOn mine theirs c' channel := by
  cases hst with
  | hear M hM =>
    unfold InTurnOn
    rw [deliveredOn_append_of_ne fun hand => hM (of_decide_eq_true hand.2)]
    exact h channel
  | deliver single M hM ho hnx =>
    obtain ⟨m, hm, hof⟩ := ho.isOf hs.records ht
    exact InTurnOn.accept h hr hm hof hM hnx channel
  | release M ch' hf =>
    obtain ⟨hM, m, hm, hof⟩ := hs.waiting M (mem_of_find?_eq_some hf)
    obtain ⟨rfl, hnx⟩ : M.channel = ch' ∧ M.sequence = c.cursor ch' := by
      simpa [isNext] using find?_some hf
    exact InTurnOn.accept h hr hm hof hM hnx channel
  | enqueue now opt seq data => exact absurd rfl (hl opt data)
  | lose M ch' hf => exact absurd rfl (hls M)
  | _ => exact h channel

/-- The side queues a message: when it is reliable, everything that the peer queued on its channel was delivered. -/
theorem InTurnOn.send (h : ∀ channel, InTurnOn mine theirs c channel) {opt : SendOptions} {data : Bytes}
    (hs : Step Γ c (.enqueue opt data) c')
    (htr : isReliable opt.delivery = true → c.cursor opt.channel ≠ -1 ∧
      (deliveredOn opt.channel c.received).length = (queuedOn opt.channel theirs).length) (channel : UInt32) :
    InTurnOn (mine ++ [⟨opt, data, c.nextMessage, c.cursor opt.channel⟩]) theirs c' channel := by
  cases hs with
  | enqueue now _ seq _ hln hsz hc hcnt hq =>
    unfold InTurnOn
    by_cases ht : opt.channel = channel ∧ isReliable opt.delivery = true
    · obtain ⟨rfl, hr⟩ := ht
      obtain ⟨hl, hn⟩ := htr hr
      obtain rfl := hq hr
      have hnx : (c.cursor opt.channel + 1).toNat = (c.cursor opt.channel).toNat + 1 := by
        rw [UInt64.toNat_add, UInt64.toNat_one, Nat.mod_eq_of_lt]
        have hne : (c.cursor opt.channel).toNat ≠ 2 ^ 64 - 1 := fun heq => hl (UInt64.toNat_inj.1 heq)
        have := (c.cursor opt.channel).toNat_lt
        omega
      rw [queuedOn_append_self (m := ⟨opt, data, c.nextMessage, c.cursor opt.channel⟩) ⟨rfl, hr⟩, length_append]
      simp only [enqueue, hr, if_true, update_self, hnx]
      exact Libft.InTurn.send (h opt.channel) (by simpa using hn)
    · rw [queuedOn_append_of_ne ht]
      by_cases hr : isReliable opt.delivery = true
      · have hch : channel ≠ opt.channel := fun heq => ht ⟨heq.symm, hr⟩
        simp only [enqueue, hr, if_true, update_of_ne hch]
        exact h channel
      · simp only [enqueue, hr]
        exact h channel

/-- The peer queues a message: when it is reliable, its number follows everything that was queued on the channel. -/
theorem InTurnOn.receive {channel : UInt32} (h : InTurnOn mine theirs c channel)
    (hn : m.options.channel = channel → isReliable m.options.delivery = true →
      m.sequence.toNat = 1 + (queuedOn channel theirs).length + (queuedOn channel mine).length) :
    InTurnOn mine (theirs ++ [m]) c channel := by
  unfold InTurnOn
  by_cases ht : m.options.channel = channel ∧ isReliable m.options.delivery = true
  · rw [queuedOn_append_self ht, map_append]
    exact Libft.InTurn.receive h m.numbered (by rw [length_map]; exact hn ht.1 ht.2)
  · rw [queuedOn_append_of_ne ht]
    exact h

end Turns

/-! ## Runs -/

/-- What two sides keep that take turns: what is on its way comes from the messages that were queued, and on every channel each side
has delivered where the other began. -/
structure Ordered (Γ : PairCtx) (cs : Side → Core) (queued : Side → List QueuedMessage) : Prop where
  secure : ∀ s, (cs s.other).secure = (cs s).secure
  sources : ∀ s, Sources Γ.crypto (Γ.cfg s).payloadCapacity (queued s) (cs s)
  sinks : ∀ s, Sinks (Γ.cfg s.other).payloadCapacity (queued s.other) (cs s)
  turns : ∀ s channel, InTurnOn (queued s) (queued s.other) (cs s) channel
  room : ∀ s channel, Unwrapped (queued s) (queued s.other) channel

/-- The sides take turns: a side sends a reliable message on a channel only when it has delivered everything that its peer queued on
it. The numbers of messages and the counter of the channel are not at their last, and there is memory for messages that waited. -/
def TakesTurns (p : Pair) : Action → Prop
  | .call side ⟨.send _ options, _⟩ _ => (p.node side).connection.nextMessage ≠ -1 ∧
    (isReliable options.delivery = true →
      (channelState (p.node side).connection.channels options.channel).nextReliableSequence ≠ -1 ∧
      (deliveredOn options.channel (p.node side).received).length = (queuedOn options.channel (p.queued side.other)).length)
  | .call .. => True
  | .deliver _ _ _ env => ∀ index, env.ok (.released index) = true

section Acceptable

variable {p : Pair} {a : Action} {data : Bytes}

theorem TakesTurns.send (h : TakesTurns p a) {opt : SendOptions} {e : Env}
    (hi : a.input p = some ⟨.send data opt, e⟩) : (p.cores a.side).nextMessage ≠ -1 ∧
      (isReliable opt.delivery = true → (p.cores a.side).cursor opt.channel ≠ -1 ∧
        (deliveredOn opt.channel (p.cores a.side).received).length =
          (queuedOn opt.channel (p.queued a.side.other)).length) := by
  cases a with
  | call side i hc =>
    obtain rfl := Option.some.inj hi
    exact h
  | deliver side j sr env =>
    obtain ⟨ent, -, heq⟩ := Option.map_eq_some_iff.1 hi
    cases heq

theorem TakesTurns.released (h : TakesTurns p a) {i : Input} {src : Endpoint} (hi : a.input p = some i)
    (hp : i.call = .process src data) : ∀ idx, i.env.ok (.released idx) = true := by
  cases a with
  | call side j hc =>
    obtain rfl : j = i := Option.some.inj hi
    rw [hp] at hc
    cases hc
  | deliver side idx sn env =>
    obtain ⟨ent, -, rfl⟩ := Option.map_eq_some_iff.1 hi
    exact h

end Acceptable

namespace Ordered

variable {Γ : PairCtx} {cs : Side → Core} {queued : Side → List QueuedMessage} {s : Side} {data : Bytes} {c : Core}

/-- The frames that a side reads are pieces of messages that its peer queued. -/
theorem carries (h : Ordered Γ cs queued) (hB : Γ.crypto.Ideal) {n : Node} {e : Env} {src d : Endpoint} {dlv : Delivery}
    {f : FrameBody} (hn : (cs s).secure = n.connection.secureEnabled)
    (he : (d, data) ∈ (cs s.other).wire) (hf : FrameOf (Γ.ctx s) e n src data dlv f) :
    ∃ m ∈ queued s.other, Carries (Γ.cfg s.other).payloadCapacity m dlv f.piece :=
  (h.sources s.other).carries (Γ := Γ.ctx s) hB ((h.secure s).trans hn) he hf

/-- One side takes a step. -/
theorem update (h : Ordered Γ cs queued) (hs : c.secure = (cs s).secure)
    (hsr : Sources Γ.crypto (Γ.cfg s).payloadCapacity (queued s) c)
    (hsn : Sinks (Γ.cfg s.other).payloadCapacity (queued s.other) c)
    (ht : ∀ channel, InTurnOn (queued s) (queued s.other) c channel) : Ordered Γ (Function.update cs s c) queued := by
  have ho : Function.update cs s c s.other = cs s.other := update_of_ne (other_ne s) _ _
  refine ⟨s.both ?_ ?_, s.both ?_ ?_, s.both ?_ ?_, s.both ?_ ?_, h.room⟩
  · rw [ho, update_self, hs]
    exact h.secure s
  · rw [ho, other_other, update_self, hs]
    exact (h.secure s).symm
  · rw [update_self]
    exact hsr
  · rw [ho]
    exact h.sources s.other
  · rw [update_self]
    exact hsn
  · rw [ho]
    exact h.sinks s.other
  · rw [update_self]
    exact ht
  · rw [ho]
    exact h.turns s.other

/-- One side queues a message, in turn. -/
theorem enqueue (h : Ordered Γ cs queued) {opt : SendOptions}
    (hst : Step (Γ.ctx s) (cs s) (.enqueue opt data) c) (hid : (cs s).nextMessage ≠ -1)
    (htr : isReliable opt.delivery = true → (cs s).cursor opt.channel ≠ -1 ∧
      (deliveredOn opt.channel (cs s).received).length = (queuedOn opt.channel (queued s.other)).length) :
    Ordered Γ (Function.update cs s c)
      (Function.update queued s (queued s ++ [⟨opt, data, (cs s).nextMessage, (cs s).cursor opt.channel⟩])) := by
  have hc : Function.update cs s c s.other = cs s.other := update_of_ne (other_ne s) _ _
  generalize hm : (⟨opt, data, (cs s).nextMessage, (cs s).cursor opt.channel⟩ : QueuedMessage) = m
  have hq : Function.update queued s (queued s ++ [m]) s.other = queued s.other := update_of_ne (other_ne s) _ _
  -- the number of the message follows everything that was queued on its channel, and is not the last
  have hn (channel : UInt32) (hch : m.options.channel = channel) (hr : isReliable m.options.delivery = true) :
      m.sequence.toNat = 1 + (queuedOn channel (queued s)).length + (queuedOn channel (queued s.other)).length ∧
        m.sequence ≠ -1 := by
    subst hm hch
    obtain ⟨hl, hlen⟩ := htr hr
    refine ⟨?_, hl⟩
    rw [← hlen, (h.turns s opt.channel).cursor_eq, length_map]
  have hrm (channel : UInt32) :
      1 + (queuedOn channel (queued s ++ [m])).length + (queuedOn channel (queued s.other)).length < 2 ^ 64 := by
    by_cases hth : m.options.channel = channel ∧ isReliable m.options.delivery = true
    · obtain ⟨hseq, hl⟩ := hn channel hth.1 hth.2
      have hne : m.sequence.toNat ≠ 2 ^ 64 - 1 := fun heq => hl (UInt64.toNat_inj.1 heq)
      have := m.sequence.toNat_lt
      rw [queuedOn_append_self hth, length_append, length_singleton]
      omega
    · rw [queuedOn_append_of_ne hth]
      exact h.room s channel
  refine ⟨s.both ?_ ?_, s.both ?_ ?_, s.both ?_ ?_, s.both ?_ ?_, s.both ?_ ?_⟩
  · rw [hc, update_self, hst.secure_eq]
    exact h.secure s
  · rw [hc, other_other, update_self, hst.secure_eq]
    exact (h.secure s).symm
  · rw [update_self, update_self, ← hm]
    exact (h.sources s).enqueue hst hid
  · rw [hc, hq]
    exact h.sources s.other
  · rw [update_self, hq]
    exact (h.sinks s).step hst trivial (h.sources s.other).unique
  · rw [hc, other_other, update_self]
    have hs := h.sinks s.other
    rw [other_other] at hs
    exact hs.mono m
  · rw [update_self, update_self, hq, ← hm]
    exact InTurnOn.send (h.turns s) hst htr
  · intro channel
    rw [hc, hq, other_other, update_self]
    have ht := h.turns s.other channel
    rw [other_other] at ht
    exact ht.receive fun hch hr => (hn channel hch hr).1
  · intro channel
    rw [hq, update_self]
    exact hrm channel
  · intro channel
    rw [hq, other_other, update_self, Unwrapped]
    have := hrm channel
    omega

variable {p : Pair} {a : Action}

section Step

variable {i : Input} {l : Label} {c' : Core} (hc : Ordered Γ cs p.queued) (hsm : (cs a.side).secure = (p.cores a.side).secure)
  (ho : cs a.side.other = p.cores a.side.other) (hi : a.input p = some i) (hl : CallLabel (Γ.ctx a.side) (p.node a.side) i l)

include hc hsm ho hi hl

/-- What a step of an action takes from a datagram comes from the messages that the peer queued. -/
theorem told (hB : Γ.crypto.Ideal) : Told (Γ.cfg a.side.other).payloadCapacity (p.queued a.side.other) l := by
  by_cases hh : l.isHeard = true
  · obtain ⟨sr, data, hcl, hp⟩ := hl.heard hh
    obtain ⟨d, he⟩ := Action.mem_wire hi hcl
    exact hp.told fun dl f hf => hc.carries hB hsm (ho ▸ he) hf
  · cases l <;> trivial

/-- A step of an action in turn that queues nothing. -/
theorem step (hB : Γ.crypto.Ideal) (ha : TakesTurns p a) (hs : Step (Γ.ctx a.side) (cs a.side) l c')
    (hq : ∀ opt data, l ≠ .enqueue opt data) :
    Ordered Γ (Function.update cs a.side c') p.queued ∧
      (Function.update cs a.side c' a.side).secure = (p.cores a.side).secure := by
  have ht := hc.told hsm ho hi hl hB
  have hls : ∀ M, l ≠ .lose M := by
    rintro M rfl
    obtain ⟨sr, data, hcl, j, hfl⟩ := hl.heard rfl
    exact absurd ((ha.released hi hcl j).symm.trans hfl) nofun
  refine ⟨hc.update hs.secure_eq ((hc.sources a.side).step hs hq)
    ((hc.sinks a.side).step hs ht (hc.sources a.side.other).unique)
    (InTurnOn.step (hc.turns a.side) (hc.room a.side) (hc.sinks a.side) hs ht hq hls), ?_⟩
  rw [update_self, hs.secure_eq, hsm]

end Step

/-- An action in turn. -/
theorem pairStep (h : Ordered Γ p.cores p.queued) (hB : Γ.crypto.Ideal) (ha : TakesTurns p a) :
    Ordered Γ (pairStep Γ p a).cores (pairStep Γ p a).queued := by
  refine pairStep_invariant (I := fun cs queued => Ordered Γ cs queued ∧ (cs a.side).secure = (p.cores a.side).secure)
    ⟨h, rfl⟩ ?_ ?_ |>.1
  · rintro i hi cs l c' ⟨hc, hsm⟩ ho hs hl hq
    exact hc.step hsm ho hi hl hB ha hs hq
  · intro data o e hi c' hs
    rw [update_self]
    exact ⟨h.enqueue hs (ha.send hi).1 (ha.send hi).2, hs.secure_eq⟩

/-- A record of a side with the id of a message that its peer queued is a record of it. -/
theorem reassembles (h : Ordered Γ cs queued) {m : QueuedMessage} (hm : m ∈ queued s.other) {r : ReassemblyRecord}
    (hr : r ∈ (cs s).reassembly) (hid : r.messageId = m.messageId) : Reassembles (Γ.cfg s.other).payloadCapacity m r := by
  obtain ⟨m', hm', hof⟩ := (h.sinks s).records r hr
  obtain rfl := (h.sources s.other).unique m' hm' m hm (hof.messageId.symm.trans hid)
  exact hof

end Ordered

/-- Two connections that were just established: both are encrypted or neither is, nothing was queued or delivered, and nothing was sent
but handshake packets. -/
structure Fresh (p : Pair) : Prop where
  secure : ∀ s, (p.node s.other).connection.secureEnabled = (p.node s).connection.secureEnabled
  silent : ∀ s, ∀ entry ∈ (p.node s).wire, ∃ type more, type.isHandshake = true ∧
    entry.2 = encodeHeader type 0 (p.node s).connection.id ++ more
  pending : ∀ s lane, (p.node s).connection.pendingLanes lane = []
  sent : ∀ s, (p.node s).connection.sent = []
  reassembly : ∀ s, (p.node s).connection.reassembly = []
  orderedPending : ∀ s, (p.node s).connection.orderedPending = []
  channels : ∀ s, (p.node s).connection.channels = []
  received : ∀ s, (p.node s).received = []
  queued : ∀ s, p.queued s = []

theorem Fresh.ordered {Γ : PairCtx} {p : Pair} (h : Fresh p) : Ordered Γ p.cores p.queued where
  secure := h.secure
  sources s := by
    refine ⟨?_, ?_, fun lane frame hf => ?_, fun x hx => ?_, fun ent he => .inl (h.silent s ent he)⟩
    · rw [h.queued]
      nofun
    · rw [h.queued]
      nofun
    · rw [show (p.cores s).pending lane = [] from h.pending s lane] at hf
      cases hf
    · rw [show (p.cores s).sent = [] from h.sent s] at hx
      cases hx
  sinks s := by
    refine ⟨fun r hr => ?_, fun M hM => ?_⟩
    · rw [show (p.cores s).reassembly = [] from h.reassembly s] at hr
      cases hr
    · rw [show (p.cores s).orderedPending = [] from h.orderedPending s] at hM
      cases hM
  turns s channel := by
    unfold InTurnOn
    rw [h.queued, h.queued, show (p.cores s).received = [] from h.received s,
      show (p.cores s).cursor channel = 1 by simp [Pair.cores, core, h.channels s, channelState]]
    exact Libft.InTurn.empty
  room s channel := by
    rw [h.queued, h.queued]
    show 1 + 0 + 0 < 2 ^ 64
    decide

/-- In every run in which the sides take turns on each channel, with any loss, duplication and reordering, the reliable messages that a
side delivered on a channel are a prefix of those that its peer queued on it. -/
theorem delivered_prefix_queued (Γ : PairCtx) (hB : Γ.crypto.Ideal) (p : Pair) (hp : Fresh p) (actions : List Action)
    (h : Meets (pairStep Γ) TakesTurns p actions) (s : Side) (channel : UInt32) :
    let q := runPair Γ p actions
    (deliveredOn channel (q.node s).received).map payload <+:
      (queuedOn channel (q.queued s.other)).map QueuedMessage.data := by
  intro q
  have hq : Ordered Γ q.cores q.queued :=
    Meets.invariant (I := fun p => Ordered Γ p.cores p.queued) (fun _ _ hp ha => hp.pairStep hB ha) hp.ordered h
  have hf := (hq.turns s channel).accepted.map Prod.snd
  rw [map_map, map_map, map_map] at hf
  exact hf

theorem fresh_securePair : Fresh securePair where
  secure _ := rfl
  silent _ := nofun
  pending _ _ := rfl
  sent _ := rfl
  reassembly _ := rfl
  orderedPending _ := rfl
  channels _ := rfl
  received _ := rfl
  queued _ := rfl

/-- The right side sends a message and the left side answers on the same channel once it has it. The datagram of the message is handed
over twice. -/
theorem delivered_prefix_after_answer :
    let q := runPair securePairCtx securePair
      [.call .right ⟨.send [1] {}, { now := 1000 }⟩, .call .right ⟨.advance, { now := 1000 }⟩,
        .deliver .left 1 ⟨[1]⟩ { now := 1000 }, .call .left ⟨.send [2] {}, { now := 1000 }⟩,
        .deliver .left 1 ⟨[1]⟩ { now := 1000 }]
    (deliveredOn 0 (q.node .left).received).map payload <+:
      (queuedOn 0 (q.queued Side.left.other)).map QueuedMessage.data :=
  delivered_prefix_queued securePairCtx symbolicBackend_ideal securePair fresh_securePair
    [.call .right ⟨.send [1] {}, { now := 1000 }⟩, .call .right ⟨.advance, { now := 1000 }⟩,
      .deliver .left 1 ⟨[1]⟩ { now := 1000 }, .call .left ⟨.send [2] {}, { now := 1000 }⟩,
      .deliver .left 1 ⟨[1]⟩ { now := 1000 }]
    ⟨⟨by decide +kernel, fun _ => by decide +kernel⟩, trivial, fun _ => rfl, ⟨by decide +kernel, fun _ => by decide +kernel⟩,
      fun _ => rfl, trivial⟩ .left 0

/-- The right side sends two messages, and the left side sends one on the same channel before the first arrives. The first is then
dropped, and the second is delivered. -/
theorem delivered_prefix_false_when_both_send :
    let q := runPair securePairCtx securePair
      [.call .right ⟨.send [1] {}, { now := 1000 }⟩, .call .right ⟨.advance, { now := 1000 }⟩,
        .call .right ⟨.send [2] {}, { now := 1000 }⟩, .call .right ⟨.advance, { now := 1100 }⟩,
        .call .left ⟨.send [9] {}, { now := 1100 }⟩,
        .deliver .left 1 ⟨[1]⟩ { now := 1100 }, .deliver .left 2 ⟨[1]⟩ { now := 1100 }]
    Fresh securePair ∧ (queuedOn 0 (q.queued Side.left.other)).map QueuedMessage.data = [[1], [2]] ∧
      (deliveredOn 0 (q.node .left).received).map payload = [[2]] ∧
      ¬(deliveredOn 0 (q.node .left).received).map payload <+:
        (queuedOn 0 (q.queued Side.left.other)).map QueuedMessage.data :=
  ⟨fresh_securePair, by decide +kernel⟩

end Libft.Networking
