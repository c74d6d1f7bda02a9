import Libft.Lib.Sums
import Libft.Networking.Calls

/-!
# What the counters count

Three counters that the transport keeps by hand: the bytes in flight, against which the congestion window is compared; the bytes
queued, in all and by lane, against which the queue limit is compared; and the bytes of incomplete messages, which the configuration
bounds. Each equals what it stands for as long as the code paths that forget it are not taken.
-/

namespace Libft.Networking

open Function List Bool Nat SentPacket

variable {Γ : Ctx} {c c' : Core} {l : Label} {cap : Nat}

/-! ## Bytes in flight -/

/-- The counter of the bytes in flight is the sum over the sent list. -/
def Core.FlightCounted (c : Core) : Prop := c.bytesInFlight = (c.sent.map wireSize).sum

/-- Every step keeps the bytes in flight counted, but the expiry of a sent packet. -/
theorem Core.FlightCounted.step (h : c.FlightCounted) (hs : Step Γ c l c') (hl : ∀ p, l ≠ .expireSent p) : c'.FlightCounted := by
  cases hs with
  | transmit d now lane frame tl data ch =>
    by_cases hr : isReliable frame.delivery = true
    · simpa [FlightCounted, transmit, hr] using h
    · simpa [FlightCounted, transmit, hr] using h
  | retransmit d now i p data ch hp =>
    have hm := sum_map_set wireSize
      { p with sentAt := now, packetNumber := c.nextPacket, wireSize := data.length, retransmitted := true } hp
    simp only [FlightCounted, retransmit] at h hm ⊢
    omega
  | expireSent i p => exact absurd rfl (hl p)
  | abort => rfl
  | acknowledge lr r =>
    have hm := sum_map_filter_add wireSize c.sent fun p => isAcknowledged lr r p.packetNumber
    simp only [FlightCounted, acknowledge] at h ⊢
    omega
  | _ => exact h

/-- When the connection advances, no sent packet that is due for retransmission has expired. -/
def SentUnexpired (Γ : Ctx) (n : Node) (i : Input) : Prop :=
  i.call.advances = true →
    ∀ p ∈ n.connection.sent, isDue Γ.cfg i.env.now p = true → isExpired i.env.now p.frame = false

instance (Γ : Ctx) (n : Node) (i : Input) : Decidable (SentUnexpired Γ n i) :=
  inferInstanceAs (Decidable (_ = true → ∀ p ∈ _, _ = true → _ = false))

/-- As long as no packet expires in the sent list, the bytes in flight are those of the packets in it. -/
theorem bytesInFlight_eq_sum_wireSize (Γ : Ctx) (n : Node) (hn : n.connection.sent = [] ∧ n.connection.bytesInFlight = 0)
    (inputs : List Input) (h : Meets (step Γ) (SentUnexpired Γ) n inputs) :
    (run Γ n inputs).connection.bytesInFlight = ((run Γ n inputs).connection.sent.map wireSize).sum := by
  have hs : (core n).FlightCounted := by
    simp only [Core.FlightCounted, core, hn.1, hn.2, map_nil, sum_nil]
  refine run_invariant (fun n i hi c l c' hst hl hc => hc.step hst ?_) hs h
  -- the label of an expiry would need a packet that is due and expired
  rintro p rfl
  obtain ⟨call, e⟩ := i
  cases call with
  | advance | poll => simpa [hi rfl p hl.1 hl.2.1] using hl.2.2
  | send => cases hl
  | _ => exact hl.elim

/-- A message is sent, and its packet is retransmitted before it expires. -/
theorem bytesInFlight_eq_after_retransmission :
    let inputs : List Input := [⟨.send [1, 2, 3] { expiryMilliseconds := 5000 }, { now := 1000 }⟩, ⟨.advance, { now := 1000 }⟩,
      ⟨.advance, { now := 2000 }⟩]
    (run plainCtx openNode inputs).connection.bytesInFlight =
      ((run plainCtx openNode inputs).connection.sent.map wireSize).sum :=
  bytesInFlight_eq_sum_wireSize plainCtx openNode ⟨rfl, rfl⟩ _ (by decide)

/-- A message whose time is over when its packet is due leaves the sent list, and stays in flight. -/
theorem bytesInFlight_after_expiry :
    let inputs : List Input := [⟨.send [1, 2, 3] { expiryMilliseconds := 100 }, { now := 1000 }⟩, ⟨.advance, { now := 1000 }⟩,
      ⟨.advance, { now := 2000 }⟩]
    (run plainCtx openNode inputs).connection.sent = [] ∧ (run plainCtx openNode inputs).connection.bytesInFlight = 88 ∧
      (run plainCtx openNode inputs).connection.bytesInFlight ≠
        ((run plainCtx openNode inputs).connection.sent.map wireSize).sum := by
  decide

/-! ## Queued bytes -/

/-- The payload bytes of frames. -/
def payloadBytes (frames : List OutgoingFrame) : Nat := (frames.map fun frame => frame.payload.length).sum

/-- The frames that wait for their acknowledgement. -/
def sentFrames (sent : List SentPacket) : List OutgoingFrame := sent.map frame

/-- The frames of a lane. -/
def framesOfLane (lane : Lane) (frames : List OutgoingFrame) : List OutgoingFrame :=
  frames.filter fun frame => laneIndex frame.lane = lane

/-- The byte counts of the lanes are those of the frames that wait in them or have been sent from them, and the count of the queue is
their sum. A frame waits in the lane it names. -/
structure Core.QueueCounted (c : Core) : Prop where
  lane_eq : ∀ lane, c.laneQueued lane = payloadBytes (c.pending lane) + payloadBytes (framesOfLane lane (sentFrames c.sent))
  queue_eq : c.queueBytes = ∑ lane, c.laneQueued lane
  pending_lane : ∀ lane, ∀ frame ∈ c.pending lane, laneIndex frame.lane = lane

/-- A bounded part of every slice: the slices of a list up to an index cover the list up to there. -/
theorem sum_length_slices (cap : Nat) (data : Bytes) (cnt : Nat) :
    ((List.range cnt).map fun i => ((data.drop (i * cap)).take cap).length).sum =
      min data.length (cnt * cap) := by
  induction cnt with
  | zero => simp
  | succ cnt ih =>
    rw [range_succ, map_append, sum_append_nat, ih]
    simp only [map_cons, map_nil, sum_cons, sum_nil, length_take, length_drop, succ_mul]
    omega

/-- The frames of a message carry all of it. -/
theorem payloadBytes_fragments (hp : cap ≠ 0) (opt : SendOptions) (mi seq now : UInt64)
    (data : Bytes) : payloadBytes (fragments cap opt mi seq now data) = data.length := by
  have hs := sum_length_slices cap data (fragmentCount cap data.length)
  have hc : data.length ≤ fragmentCount cap data.length * cap := by
    have hd := div_add_mod (data.length + cap - 1) cap
    have hm := mod_lt (data.length + cap - 1) (pos_of_ne_zero hp)
    have hx : (data.length + cap - 1) / cap * cap ≤ fragmentCount cap data.length * cap :=
      mul_le_mul_right _ (le_max_right _ _)
    rw [mul_comm] at hd
    omega
  rw [payloadBytes, fragments, map_map]
  exact hs.trans (min_eq_left hc)

variable {frame : OutgoingFrame}

theorem lane_of_mem_fragments {opt : SendOptions} {mi seq now : UInt64} {data : Bytes}
    (h : frame ∈ fragments cap opt mi seq now data) : frame.lane = opt.lane := by
  obtain ⟨i, -, rfl⟩ := mem_map.1 h
  rfl

/-- The bytes sent from a lane, packet by packet. -/
theorem payloadBytes_sentFrames (lane : Lane) (sent : List SentPacket) :
    payloadBytes (framesOfLane lane (sentFrames sent)) =
      ((sent.filter fun p => laneIndex p.frame.lane = lane).map fun p => p.frame.payload.length).sum := by
  rw [payloadBytes, framesOfLane, sentFrames, filter_map, map_map]
  rfl

section QueueCounted

variable {lane : Lane} {tl : List OutgoingFrame}

@[simp] theorem payloadBytes_nil : payloadBytes [] = 0 := rfl

@[simp] theorem payloadBytes_cons (frame : OutgoingFrame) (fs : List OutgoingFrame) :
    payloadBytes (frame :: fs) = frame.payload.length + payloadBytes fs := by
  simp [payloadBytes]

@[simp] theorem payloadBytes_append (fs fs' : List OutgoingFrame) :
    payloadBytes (fs ++ fs') = payloadBytes fs + payloadBytes fs' := by
  simp [payloadBytes]

section

variable (h : c.QueueCounted)

include h

/-- The frames behind the first of a lane are still of that lane. -/
theorem Core.QueueCounted.pop (hln : c.pending lane = frame :: tl) : ∀ l, ∀ f ∈ update c.pending lane tl l, laneIndex f.lane = l := by
  intro l f hf
  by_cases hl : l = lane
  · subst hl
    rw [update_self] at hf
    exact h.pending_lane l f (by simp [hln, hf])
  · rw [update_of_ne hl] at hf
    exact h.pending_lane l f hf

/-- The first frame of a lane is sent. -/
theorem Core.QueueCounted.transmit {dst : Endpoint} {now : UInt64} {data : Bytes} {ch : SecureChannel}
    (hln : c.pending lane = frame :: tl) : (c.transmit dst now lane frame tl data ch).QueueCounted := by
  have hf : laneIndex frame.lane = lane := h.pending_lane lane frame (by simp [hln])
  have hc := h.lane_eq lane
  rw [hln, payloadBytes_cons] at hc
  by_cases hr : isReliable frame.delivery = true
  · refine ⟨fun l => ?_, by simpa [Core.transmit, hr] using h.queue_eq, h.pop hln⟩
    have hl := h.lane_eq l
    by_cases hne : l = lane
    · subst hne
      simp [Core.transmit, hr, sentFrames, framesOfLane, hf] at hc ⊢
      omega
    · have hn' : ¬lane = l := Ne.symm hne
      simp [Core.transmit, hr, sentFrames, framesOfLane, hf, hne, hn'] at hl ⊢
      omega
  · refine ⟨fun l => ?_, ?_, h.pop hln⟩
    · by_cases hne : l = lane
      · subst hne
        simp only [Core.transmit, hr, false_eq_true, if_false, update_self]
        omega
      · simp only [Core.transmit, hr, false_eq_true, if_false, update_of_ne hne]
        exact h.lane_eq l
    · have hs := sum_update c.laneQueued lane (c.laneQueued lane - frame.payload.length)
      have hq : c.queueBytes = ∑ lane : Fin 4, c.laneQueued lane := h.queue_eq
      simp only [Core.transmit, hr, false_eq_true, if_false]
      change c.queueBytes - frame.payload.length =
        ∑ j : Fin 4, update c.laneQueued lane (c.laneQueued lane - frame.payload.length) j
      omega

/-- Frames without bytes may leave unnoticed. -/
theorem Core.QueueCounted.drop (hln : c.pending lane = frame :: tl) (hn : frame.payload = []) :
    ({ c with pending := update c.pending lane tl } : Core).QueueCounted := by
  refine ⟨fun l => ?_, h.queue_eq, h.pop hln⟩
  have hl := h.lane_eq l
  by_cases hne : l = lane
  · subst hne
    simpa [hln, hn] using hl
  · simpa [hne] using hl

/-- A message is queued with all its bytes. -/
theorem Core.QueueCounted.enqueue {cap : Nat} (hc : cap ≠ 0) (now : UInt64) (opt : SendOptions)
    (seq : UInt64) (data : Bytes) : (c.enqueue cap now opt seq data).QueueCounted := by
  have hbs := payloadBytes_fragments hc opt c.nextMessage seq now data
  refine ⟨fun l => ?_, ?_, fun l f hf => ?_⟩
  · have hl := h.lane_eq l
    by_cases hne : l = laneIndex opt.lane
    · subst hne
      simp only [Core.enqueue, update_self, payloadBytes_append, hbs]
      omega
    · simpa [Core.enqueue, hne] using hl
  · have hs := sum_update c.laneQueued (laneIndex opt.lane) (c.laneQueued (laneIndex opt.lane) + data.length)
    have hq : c.queueBytes = ∑ lane : Fin 4, c.laneQueued lane := h.queue_eq
    change c.queueBytes + data.length =
      ∑ j : Fin 4, update c.laneQueued (laneIndex opt.lane) (c.laneQueued (laneIndex opt.lane) + data.length) j
    omega
  · by_cases hne : l = laneIndex opt.lane
    · subst hne
      simp only [Core.enqueue, update_self, mem_append] at hf
      rcases hf with hf | hf
      · exact h.pending_lane _ f hf
      · rw [lane_of_mem_fragments hf]
    · simp only [Core.enqueue, update_of_ne hne] at hf
      exact h.pending_lane l f hf

/-- Acknowledged packets are counted out. -/
theorem Core.QueueCounted.acknowledge (acknowledged : SentPacket → Bool) : (c.acknowledge acknowledged).QueueCounted := by
  have hdn (lane : Lane) : payloadBytes (framesOfLane lane (sentFrames (c.sent.filter acknowledged))) +
      payloadBytes (framesOfLane lane (sentFrames (c.sent.filter fun p => !acknowledged p))) =
      payloadBytes (framesOfLane lane (sentFrames c.sent)) := by
    have hsum := sum_map_filter_add (fun p : SentPacket => p.frame.payload.length)
      (c.sent.filter fun p => laneIndex p.frame.lane = lane) acknowledged
    simp only [payloadBytes_sentFrames]
    rw [← hsum]
    simp only [filter_filter, Bool.and_comm]
  have hln (lane : Lane) : (c.acknowledge acknowledged).laneQueued lane +
      payloadBytes (framesOfLane lane (sentFrames (c.sent.filter acknowledged))) = c.laneQueued lane := by
    have hl := h.lane_eq lane
    have hd := hdn lane
    rw [payloadBytes_sentFrames] at hd ⊢
    simp only [Core.acknowledge]
    omega
  refine ⟨fun lane => ?_, ?_, h.pending_lane⟩
  · have hl := hln lane
    have hd := hdn lane
    have hc := h.lane_eq lane
    simp only [Core.acknowledge] at hl ⊢
    omega
  · have hp := sum_sum_map_filter (fun p : SentPacket => p.frame.payload.length) (fun p => laneIndex p.frame.lane)
      (c.sent.filter acknowledged)
    have htot : ∑ lane, (c.acknowledge acknowledged).laneQueued lane +
        ((c.sent.filter acknowledged).map fun p => p.frame.payload.length).sum = c.queueBytes := by
      rw [h.queue_eq, ← hp, ← Finset.sum_add_distrib]
      refine Finset.sum_congr rfl fun lane _ => ?_
      rw [← payloadBytes_sentFrames]
      exact hln lane
    exact (Nat.eq_sub_of_add_eq htot).symm

end

/-- A step that takes no bytes out of the queue by the paths that do not count them. -/
def Label.KeepsCount : Label → Prop
  | .expireSent p => p.frame.payload = []
  | .drop frame | .forget frame => frame.payload = []
  | .abort queueBytes => queueBytes = 0
  | _ => True

/-- Every such step keeps the queue counted. -/
theorem Core.QueueCounted.step (h : c.QueueCounted) (hs : Step Γ c l c') (hl : l.KeepsCount) : c'.QueueCounted := by
  cases hs with
  | transmit d now lane frame tl data ch hln => exact h.transmit hln
  | retransmit d now j p data ch hp =>
    -- the frame stays in its place
    refine ⟨fun lane => ?_, h.queue_eq, h.pending_lane⟩
    have hsm : sentFrames (c.retransmit d now j p data ch).sent = sentFrames c.sent := by
      simp only [sentFrames, retransmit, map_set]
      apply ext_getElem?
      intro i
      rw [getElem?_set]
      split
      · rename_i hi
        subst hi
        simp [hp]
        exact (List.getElem?_eq_some_iff.1 hp).1
      · rfl
    rw [hsm]
    exact h.lane_eq lane
  | expireSent j p hp =>
    have hn : p.frame.payload = [] := hl
    have hm (lane : Lane) : payloadBytes (framesOfLane lane (sentFrames (c.sent.eraseIdx j))) =
        payloadBytes (framesOfLane lane (sentFrames c.sent)) := by
      obtain ⟨hi, rfl⟩ := List.getElem?_eq_some_iff.1 hp
      have he := (((getElem_cons_eraseIdx_perm hi).filter fun p => decide (laneIndex p.frame.lane = lane)).map
        fun p => p.frame.payload.length).sum_eq
      rw [payloadBytes_sentFrames, payloadBytes_sentFrames, ← he, filter_cons]
      split
      · simp [hn]
      · rfl
    refine ⟨fun lane => ?_, ?_, h.pending_lane⟩
    · rw [hm]
      exact h.lane_eq lane
    · simpa [hn] using h.queue_eq
  | drop lane frame tl hln => exact { h.drop hln hl with }
  | forget lane frame tl hln => exact h.drop hln hl
  | abort =>
    have hz : ∀ lane, c.laneQueued lane = 0 := by
      have hm := h.queue_eq.symm.trans hl
      simpa using hm
    refine ⟨fun lane => ?_, ?_, nofun⟩
    · simp [hz, sentFrames, framesOfLane]
    · simp [hz]
  | enqueue now o seq data hln hsz hc => exact h.enqueue hc now o seq data
  | acknowledge lr r => exact h.acknowledge _
  | _ => exact { h with }

end QueueCounted

/-- A connection with nothing queued and nothing counted. -/
def QueueFresh (c : ConnectionRecord) : Prop :=
  (∀ lane, c.pendingLanes lane = []) ∧ c.sent = [] ∧ c.statistics.queueBytes = 0 ∧ ∀ lane, c.statistics.laneQueuedBytes lane = 0

/-- No bytes leave the queue without being counted: when the connection advances, neither a sent packet that is due nor the frame that
is taken from its lane has expired, unless it is empty, and there is memory to put a frame back; and the connection is aborted, by the
application or for idleness, with nothing queued. -/
def QueueKept (Γ : Ctx) (n : Node) (i : Input) : Prop :=
  (i.call.advances = true →
    (∀ p ∈ n.connection.sent, isDue Γ.cfg i.env.now p = true → isExpired i.env.now p.frame = true → p.frame.payload = []) ∧
    (∀ frame ∈ advanceFrame Γ i.env n, isExpired i.env.now frame = true → frame.payload = []) ∧ i.env.ok .requeue = true ∧
    (isIdle Γ.cfg i.env.now n.connection = true → n.connection.statistics.queueBytes = 0)) ∧
  (i.call.aborts = true → n.connection.state ≠ .closed → n.connection.statistics.queueBytes = 0)

instance (Γ : Ctx) (n : Node) (i : Input) : Decidable (QueueKept Γ n i) :=
  inferInstanceAs (Decidable ((_ = true → (∀ p ∈ _, _ = true → _ = true → _ = []) ∧
    (∀ frame ∈ advanceFrame Γ i.env n, _ = true → _ = []) ∧ _ = true ∧ (_ = true → _ = 0)) ∧ (_ = true → _ ≠ _ → _ = 0)))

/-- What an acceptable call may do to the queue. -/
theorem QueueKept.label {n : Node} {i : Input} (h : QueueKept Γ n i) (hl : CallLabel Γ n i l) : l.KeepsCount := by
  obtain ⟨ha, hab⟩ := h
  obtain ⟨call, e⟩ := i
  cases call with
  | advance | poll =>
    obtain ⟨hs, hf, hr, hid⟩ := ha rfl
    cases l with
    | expireSent p => exact hs p hl.1 hl.2.1 hl.2.2
    | drop frame => exact hf frame hl.1 hl.2
    | forget frame => exact absurd (hr.symm.trans hl) nofun
    | abort qb => exact hl.2.1.trans (hid hl.1)
    | _ => trivial
  | close r text abort =>
    cases l with
    | abort qb => exact hl.2.2.trans (hab hl.1 hl.2.1)
    | expireSent | drop | forget => exact hl.elim
    | _ => trivial
  | send data o =>
    cases hl
    trivial
  | _ =>
    cases l with
    | expireSent | drop | forget | abort => exact hl.elim
    | _ => trivial

/-- As long as no bytes leave the queue uncounted, the byte counts of the lanes and of the queue are those of the frames that wait and
that are sent. -/
theorem queueBytes_eq_payloadBytes (Γ : Ctx) (n : Node) (hn : QueueFresh n.connection) (inputs : List Input)
    (h : Meets (step Γ) (QueueKept Γ) n inputs) :
    let c := (run Γ n inputs).connection
    c.statistics.queueBytes = ∑ lane, payloadBytes (c.pendingLanes lane) + payloadBytes (sentFrames c.sent) ∧
      ∀ lane, c.statistics.laneQueuedBytes lane =
        payloadBytes (c.pendingLanes lane) + payloadBytes (framesOfLane lane (sentFrames c.sent)) := by
  obtain ⟨hp, hsn, hq, hln⟩ := hn
  have hs : (core n).QueueCounted := by
    refine ⟨fun lane => ?_, ?_, fun lane frame hf => ?_⟩
    · simp [core, hp, hsn, hln, sentFrames, framesOfLane]
    · simp [core, hq, hln]
    · simp [core, hp] at hf
  have hr : (core (run Γ n inputs)).QueueCounted := run_invariant (fun n i hi c l c' hst hl hc => hc.step hst (hi.label hl)) hs h
  refine ⟨hr.queue_eq.trans ?_, hr.lane_eq⟩
  have hpr := sum_sum_map_filter (fun frame : OutgoingFrame => frame.payload.length) (fun frame => laneIndex frame.lane)
    (sentFrames (run Γ n inputs).connection.sent)
  rw [payloadBytes, ← hpr, ← Finset.sum_add_distrib]
  exact Finset.sum_congr rfl fun lane _ => hr.lane_eq lane

/-- Two messages are queued in two lanes, and one of them is sent. -/
theorem queueBytes_eq_after_send :
    let inputs : List Input := [⟨.send [1, 2, 3] {}, { now := 1000 }⟩, ⟨.send [4, 5] { lane := 1 }, { now := 1000 }⟩,
      ⟨.advance, { now := 1000 }⟩]
    let c := (run plainCtx openNode inputs).connection
    c.statistics.queueBytes = ∑ lane, payloadBytes (c.pendingLanes lane) + payloadBytes (sentFrames c.sent) ∧
      ∀ lane, c.statistics.laneQueuedBytes lane =
        payloadBytes (c.pendingLanes lane) + payloadBytes (framesOfLane lane (sentFrames c.sent)) :=
  queueBytes_eq_payloadBytes plainCtx openNode ⟨fun _ => rfl, rfl, rfl, fun _ => rfl⟩ _ (by decide)

/-- A message that expires before its turn leaves its lane, and stays in the byte counts of the queue and of the lane. -/
theorem queueBytes_after_expiry :
    let inputs : List Input := [⟨.send [1, 2, 3] { expiryMilliseconds := 100 }, { now := 1000 }⟩, ⟨.advance, { now := 2000 }⟩]
    let c := (run plainCtx openNode inputs).connection
    (∀ lane, c.pendingLanes lane = []) ∧ c.sent = [] ∧ c.statistics.queueBytes = 3 ∧ c.statistics.laneQueuedBytes 2 = 3 ∧
      c.statistics.queueBytes ≠ ∑ lane, payloadBytes (c.pendingLanes lane) + payloadBytes (sentFrames c.sent) := by
  decide

/-! ## Bytes of incomplete messages -/

/-- The declared sizes of the messages that are held for reassembly. -/
def heldBytes (reassembly : List ReassemblyRecord) : Nat := (reassembly.map fun record => record.totalSize.toNat).sum

/-- The counter of the bytes held is the sum over the records, and within a limit. -/
structure Core.HeldWithin (limit : Nat) (c : Core) : Prop where
  counted : c.reassemblyBytes = heldBytes c.reassembly
  within : heldBytes c.reassembly ≤ limit

/-- A record keeps its declared size whatever is stored in it. -/
theorem heldBytes_store {i : Nat} {rec : ReassemblyRecord} (f : FrameBody)
    (hr : c.reassembly[i]? = some rec) : heldBytes (c.store i rec f).reassembly = heldBytes c.reassembly := by
  have hs := sum_map_set (fun rec : ReassemblyRecord => rec.totalSize.toNat)
    (rec.store f.fragmentOffset.toNat f.payload) hr
  exact add_right_cancel hs

/-- Every step keeps the counter of the bytes held that of the records. -/
theorem Step.reassemblyBytes_eq (hs : Step Γ c l c')
    (hc : c.reassemblyBytes = heldBytes c.reassembly) : c'.reassemblyBytes = heldBytes c'.reassembly := by
  cases hs with
  | abort => rfl
  | openRecord rec =>
    simp only [heldBytes, map_append, sum_append_nat, map_cons, map_nil, sum_cons, sum_nil] at hc ⊢
    omega
  | store i rec f hr =>
    rw [heldBytes_store f hr]
    exact hc
  | complete i rec hr =>
    have he := sum_map_eraseIdx (fun rec : ReassemblyRecord => rec.totalSize.toNat) hr
    simp only [heldBytes] at hc ⊢
    omega
  | expireRecords expired =>
    have hm := sum_map_filter_add (fun rec : ReassemblyRecord => rec.totalSize.toNat) c.reassembly expired
    simp only [heldBytes] at hc ⊢
    omega
  | _ => exact hc

/-- Every step keeps the bytes held within the limit, if a record that is opened fits in what is left of it. -/
theorem Core.HeldWithin.step {lim : Nat} (h : c.HeldWithin lim) (hs : Step Γ c l c')
    (ho : ∀ held rec, l = .openRecord held rec → held + rec.totalSize.toNat ≤ lim) : c'.HeldWithin lim := by
  have hc := hs.reassemblyBytes_eq h.counted
  have hw : c.reassemblyBytes ≤ lim := h.counted.trans_le h.within
  refine ⟨hc, ?_⟩
  rw [← hc]
  -- the counter says what is held, and only a record that is opened raises it
  cases hs with
  | abort => exact zero_le lim
  | openRecord rec => exact ho _ rec rfl
  | complete | expireRecords => exact (sub_le _ _).trans hw
  | _ => exact hw

/-- When a frame opens a record, the receive flow credit, against which the code tests it, is not above the configured maximum. -/
def CreditWithinMaximum (Γ : Ctx) (n : Node) (i : Input) : Prop :=
  match i.call with
  | .process source data => ∀ delivery f, FrameOf Γ i.env n source data delivery f → OpensRecord Γ i.env n f →
      n.connection.receiveFlowCredit ≤ Γ.cfg.maximumReassemblyBytes.toNat
  | _ => True

/-- As long as no record is opened on a credit above the configured maximum, the messages held for reassembly stay within it. -/
theorem heldBytes_le_maximumReassemblyBytes (Γ : Ctx) (n : Node)
    (hn : n.connection.reassembly = [] ∧ n.connection.statistics.reassemblyBytes = 0) (inputs : List Input)
    (h : Meets (step Γ) (CreditWithinMaximum Γ) n inputs) :
    heldBytes (run Γ n inputs).connection.reassembly ≤ Γ.cfg.maximumReassemblyBytes.toNat := by
  have hs : (core n).HeldWithin Γ.cfg.maximumReassemblyBytes.toNat := by
    constructor <;> simp [core, hn.1, hn.2, heldBytes]
  refine (run_invariant (fun n i hi c l c' hst hl hc => hc.step hst ?_) hs h).within
  rintro held rec rfl
  obtain ⟨call, e⟩ := i
  cases call with
  | process s data =>
    obtain ⟨rfl, d, f, hf, ho, rfl⟩ := hl
    have hcr : n.connection.receiveFlowCredit ≤ Γ.cfg.maximumReassemblyBytes.toNat := hi d f hf ho
    -- the code's own test, against the credit
    have hr := ho.room
    simp only [reassemblyFull, or_eq_false_iff, decide_eq_false_iff_not, not_lt] at hr
    simp only [ReassemblyRecord.ofFrame]
    omega
  | send => cases hl
  | _ => exact hl.elim

/-- A transport whose frames carry two bytes, and which may hold eight bytes for reassembly. -/
def smallCtx : Ctx :=
  ⟨symbolicBackend, { defaultConfig with
    enableEncryption := false
    maximumDatagramSize := 87
    maximumMessageSize := 8
    maximumReassemblyBytes := 8
    datagramSize_ok := by decide
    messageSize_ok := by decide
    reassemblyBytes_ok := by decide }⟩

/-- A connection that was just established on such a transport. -/
def smallNode : Node :=
  openNode.modify fun c => { c with receiveFlowCredit := smallCtx.cfg.maximumReassemblyBytes.toNat }

/-- The datagram of the frame with an index of a peer's message, under the packet number that stands for both. -/
def fragmentDatagram (messageId : UInt64) (size index : Nat) : Bytes :=
  framePacket (fragment smallCtx.cfg.payloadCapacity {} messageId messageId 0 (List.replicate size 9) index) 7
    (messageId * 8 + UInt64.ofNat index) 0 0 []

/-- The first fragment of a message of eight bytes is held. -/
theorem heldBytes_le_with_fragment :
    let inputs : List Input := [⟨.process ⟨[1]⟩ (fragmentDatagram 1 8 0), { now := 1000 }⟩]
    heldBytes (run smallCtx smallNode inputs).connection.reassembly = 8 ∧
      heldBytes (run smallCtx smallNode inputs).connection.reassembly ≤ smallCtx.cfg.maximumReassemblyBytes.toNat := by
  exact ⟨by decide, heldBytes_le_maximumReassemblyBytes smallCtx smallNode ⟨rfl, rfl⟩ _ ⟨fun _ _ _ _ => by decide, trivial⟩⟩

/-- A message of four bytes is completed and credited; after it, messages of eight and of four bytes are held together. -/
theorem heldBytes_exceeds_after_completion :
    let inputs : List Input := [⟨.process ⟨[1]⟩ (fragmentDatagram 1 4 0), { now := 1000 }⟩,
      ⟨.process ⟨[1]⟩ (fragmentDatagram 1 4 1), { now := 1000 }⟩, ⟨.process ⟨[1]⟩ (fragmentDatagram 2 8 0), { now := 1000 }⟩,
      ⟨.process ⟨[1]⟩ (fragmentDatagram 3 4 0), { now := 1000 }⟩]
    heldBytes (run smallCtx smallNode inputs).connection.reassembly = 12 ∧ smallCtx.cfg.maximumReassemblyBytes.toNat = 8 := by
  decide

end Libft.Networking
