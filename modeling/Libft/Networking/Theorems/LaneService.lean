import Libft.Networking.Lemmas.Fragments
import Libft.Networking.Lemmas.Selection

/-!
# The service of the lanes

Lanes one to three earn their weights at every selection, and the one that is selected pays one. Lanes with the same weight are served
alike. A lane that is lighter than another which waits all the time is not served any more: the heavier one earns at every selection what
it pays for it, so that the lighter one never gets ahead of it.
-/

namespace Libft.Networking

open Bytes Function Option List Nat UInt32

/-! ## Runs -/

/-- The lane that a call selects. -/
def served (Γ : Ctx) (n : Node) (i : Input) : Option Lane := (selecting Γ n i).bind fun m => (selectLane i.env.now m.connection).1

/-- The lanes that a run selects, in their order. -/
def servedLanes (Γ : Ctx) : Node → List Input → List Lane
  | _, [] => []
  | n, i :: rest => (served Γ n i).toList ++ servedLanes Γ (step Γ n i) rest

/-- Whenever a call selects, the lanes of a set wait, and no others than those of another set do. Nothing waits on the control lane, the
lanes that wait have a weight and no reservation, and no deficit is about to wrap. No lane is configured anew. -/
def Backlogged (Γ : Ctx) (B W : Set Lane) (n : Node) (i : Input) : Prop :=
  i.call.configures = false ∧
    ∀ m, selecting Γ n i = some m → Selects m.connection ∧ B ⊆ m.connection.waiting ∧ m.connection.waiting ⊆ W

instance (Γ : Ctx) (B W : Set Lane) [DecidablePred (· ∈ B)] [DecidablePred (· ∈ W)] (n : Node) (i : Input) :
    Decidable (Backlogged Γ B W n i) :=
  decidable_of_iff (i.call.configures = false ∧ ∀ m ∈ selecting Γ n i, Selects m.connection ∧
    (∀ lane, lane ∈ B → lane ∈ m.connection.waiting) ∧ ∀ lane, lane ∈ m.connection.waiting → lane ∈ W) Iff.rfl

variable {Γ : Ctx}

/-- A run of a backlogged connection is a sequence of turns. -/
theorem turns_run {B W : Set Lane} {is : List Input} : ∀ {n : Node}, Meets (step Γ) (Backlogged Γ B W) n is →
    Turns (weights (shares n.connection.lanes)) B W (deficits (shares n.connection.lanes)) (servedLanes Γ n is)
      (deficits (shares (run Γ n is).connection.lanes)) := by
  induction is with
  | nil => exact fun _ => .nil _
  | cons i tl ih =>
    intro n h
    obtain ⟨⟨hc, hsl⟩, hr⟩ := h
    have ha := sharesAfter_step Γ n i hc
    have ht := ih hr
    unfold servedLanes served
    cases hs : selecting Γ n i with
    | none =>
      rw [hs] at ha
      have hsm : shares (step Γ n i).connection.lanes = shares n.connection.lanes := ha
      rw [hsm] at ht
      exact ht
    | some m =>
      rw [hs] at ha
      obtain ⟨hb, hst⟩ := ha
      obtain ⟨hm, hB, hW⟩ := hsl m hs
      rw [hst] at ht
      rw [← hb]
      cases hsr : (selectLane i.env.now m.connection).1 with
      | none =>
        rw [hm.shares_of_none hsr] at ht
        rw [bind_some, hsr]
        exact ht
      | some s =>
        obtain ⟨htr, hk⟩ := hm.turn hsr
        have hw : weights (shares (selectLane i.env.now m.connection).2) = weights (shares m.connection.lanes) :=
          funext fun lane => congrArg toNat (hk lane).1
        rw [hw] at ht
        rw [bind_some, hsr]
        exact .cons ⟨_, hB, hW, htr⟩ ht

/-- What two lanes may be apart in a run, by what they are apart at the start. -/
def apart (d : Lane → ℕ) (lane lane' : Lane) : ℕ := max 1 (max (d lane - d lane') (d lane' - d lane))

/-- Lanes of a set wait all the time, while nothing waits on the control lane and no lane that waits has a reservation.
1. If all lanes that wait have the same weight, every one of the set is selected in every part of the run that has more selections than a
   bound which the deficits at the start give, and any two of them are selected in proportion to their weights, up to a constant.
2. A lane that is lighter than another one of the set is selected in the whole run no more often than its deficit is larger at the start:
   not once, if the connection is new. -/
theorem service_of_equal_weights (Γ : Ctx) (B W : Set Lane) (n : Node) (inputs : List Input)
    (h : Meets (step Γ) (Backlogged Γ B W) n inputs) (hB : B ⊆ W)
    (hpositive : ∀ lane ∈ W, (n.connection.lanes lane).priorityWeight ≠ 0) :
    let w := weights (shares n.connection.lanes)
    let d := deficits (shares n.connection.lanes)
    let log := servedLanes Γ n inputs
    ((∀ lane ∈ W, ∀ lane' ∈ W, w lane = w lane') → ∀ before wn after, log = before ++ wn ++ after →
      (∀ lane ∈ B, ∑ other ∈ Finset.univ.erase lane, (max 1 (d other - d lane) + 1) < wn.length → lane ∈ wn) ∧
      ∀ lane ∈ B, ∀ lane' ∈ B, w lane' * wn.count lane ≤ w lane * (wn.count lane' + 2 * apart d lane lane')) ∧
    ∀ lane ∈ B, ∀ lane' ∈ B, w lane < w lane' → log.count lane ≤ d lane - d lane' := by
  intro w d log
  have ht : Turns w B W d log (deficits (shares (run Γ n inputs).connection.lanes)) := turns_run h
  have hp : ∀ lane ∈ W, 0 < w lane := fun lane hln =>
    pos_of_ne_zero fun hz => hpositive lane hln (UInt32.toNat_inj.1 hz)
  refine ⟨fun he before wn after hg => ⟨fun lane hln hn => ?_, fun lane hln lane' hl' => ?_⟩,
    fun lane hln lane' hl' hl => ht.count_le hln hl' hl⟩
  · rw [hg] at ht
    exact ht.mem_of_lt hln (hp lane (hB hln)) (fun other ho => (he other ho lane (hB hln)).le) hn
  · rw [hg] at ht
    have hw := he lane (hB hln) lane' (hB hl')
    rw [hw]
    refine mul_le_mul_left _ (ht.count_le_count_add hln hl' hw (hp lane (hB hln)) (le_max_left _ _) ?_ ?_)
    · unfold apart
      omega
    · unfold apart
      omega

/-! ## A lane that is never selected -/

/-- A connection with nothing to do before it comes to its lanes: no timer, no credit to advertise, nothing sent or held. -/
structure Undisturbed (Γ : Ctx) (now : UInt64) (c : ConnectionRecord) : Prop where
  previousKey : c.previousReceiveKeyExpiry = 0
  state : c.state = .connected
  keyUpdate : c.keyUpdatePending = false
  path : c.pathValidationPending = false
  credit : c.receiveFlowCredit ≤ c.advertisedFlowCredit
  idle : isIdle Γ.cfg now c = false
  records : c.reassembly = []
  sent : c.sent = []
  acknowledged : c.largestReceived = 0

variable {n : Node}

theorem beforeFrame_of_undisturbed {e : Env} (h : Undisturbed Γ e.now n.connection) : beforeFrame Γ e n = (n, none) := by
  have ht : advanceTimers Γ e n = (n, none) := by
    simp [advanceTimers, Outcome.next, goOn, expirePreviousKey, h.previousKey, advanceDraining, h.state, advanceHandshake,
      repeatKeyUpdate, h.keyUpdate, repeatPathChallenge, h.path, advertiseCredit, not_lt.2 h.credit, abortIdle, h.idle]
  have hrc : expireReassembly e n = n := by
    obtain ⟨c, wire, rcv, ev⟩ := n
    obtain ⟨⟩ := c
    have hr := h.records
    simp only at hr
    subst hr
    rfl
  simp [beforeFrame, ht, Outcome.next, hrc, retransmitOne, h.sent, retransmitScan, goOn, sendAck, h.acknowledged]

/-- The clock ticks: the connection advances. -/
def tick : Input := ⟨.advance, { now := 1000 }⟩

theorem selecting_tick (h : Undisturbed plainCtx 1000 n.connection) : selecting plainCtx n tick = some n := by
  have hb : beforeFrame plainCtx { now := 1000 } n = (n, none) := beforeFrame_of_undisturbed h
  show (beforeFrame plainCtx { now := 1000 } n).onward = some n
  rw [hb]
  rfl

/-- An unreliable frame of one byte, of a lane. -/
def byteFrame (lane : UInt8) : OutgoingFrame := fragment 1115 { delivery := .unreliable, lane := lane } 1 1 0 [9] 0

/-- A connection with a frame on lane two, and frames on lane one. -/
def busyConnection (next : UInt64) (lanes : Lane → LaneState) (statistics : Statistics) (fs : List OutgoingFrame) :
    ConnectionRecord :=
  { openNode.connection with
    nextPacket := next
    lanes := lanes
    statistics := statistics
    lastSend := 1000
    advertisedFlowCredit := openNode.connection.receiveFlowCredit
    pendingLanes := Function.update (Function.update (fun _ => []) 2 [byteFrame 2]) 1 fs }

theorem undisturbed_busyConnection (next : UInt64) (lanes : Lane → LaneState) (statistics : Statistics) (fs : List OutgoingFrame) :
    Undisturbed plainCtx 1000 (busyConnection next lanes statistics fs) :=
  { previousKey := rfl, state := rfl, keyUpdate := rfl, path := rfl, credit := le_refl openNode.connection.receiveFlowCredit
    idle := by
      have hid : isIdle plainCtx.cfg 1000 { openNode.connection with lastSend := 1000 } = false := by decide
      exact hid
    records := rfl, sent := rfl, acknowledged := rfl }

variable {lanes : Lane → LaneState} {next : UInt64} {statistics : Statistics} {fs : List OutgoingFrame} {ticks : Nat}

/-- A connection that is not encrypted sends the frame that was taken from lane one. -/
theorem sendFrame_busyConnection {m : Node} (hm : m.connection = busyConnection next lanes statistics fs) :
    ∃ ls' s', (sendFrame plainCtx { now := 1000 } m 1 (byteFrame 1)).1.connection =
      busyConnection (next + 1) ls' s' fs := by
  have hn : (framePacket (byteFrame 1) 7 next 0 0 []).length = 86 := by
    simp only [framePacket, length_append, length_encodeHeader, length_writeU64, length_writeU32, length_writeU16,
      length_encodeAckRanges, length_cons]
    rfl
  have hen : encodeFrame (byteFrame 1) 7 next 0 0 [] plainCtx.cfg.maximumDatagramSize.toNat =
      some (framePacket (byteFrame 1) 7 next 0 0 []) := by
    have hf : (framePacket (byteFrame 1) 7 next 0 0 []).length ≤ plainCtx.cfg.maximumDatagramSize.toNat := by
      rw [hn]
      decide
    rw [encodeFrame, if_neg (by decide), if_pos hf]
  have hh : heldBack 1000 m.connection 86 = false := by
    have ho : heldBack 1000 openNode.connection 86 = false := by decide
    rw [hm]
    exact ho
  have hs : (sendFrame plainCtx { now := 1000 } m 1 (byteFrame 1)).1.connection =
      countFrame 1000 1 (byteFrame 1) 86 m.connection := by
    obtain ⟨hid, hnx, hep, hl, hr, hp⟩ : m.connection.id = 7 ∧ m.connection.nextPacket = next ∧
        m.connection.sendEpoch = 0 ∧ m.connection.largestReceived = 0 ∧ m.connection.receivedRanges = [] ∧
        m.connection.secureEnabled = false := by
      rw [hm]
      exact ⟨rfl, rfl, rfl, rfl, rfl, rfl⟩
    have he : isExpired 1000 (byteFrame 1) = false := by decide
    simp [sendFrame, he, hid, hnx, hep, hl, hr, hen, protectFor, hp, hn, hh]
  rw [hs, hm]
  exact ⟨_, _, rfl⟩

/-- A tick that selects lane one sends the first frame there. -/
theorem step_busyConnection (hn : n.connection = busyConnection next lanes statistics (byteFrame 1 :: fs))
    (hs : (selectLane 1000 n.connection).1 = some 1) :
    ∃ ls' s', (step plainCtx n tick).connection =
      busyConnection (next + 1) ls' s' fs := by
  have hb : beforeFrame plainCtx { now := 1000 } n = (n, none) :=
    beforeFrame_of_undisturbed (hn ▸ undisturbed_busyConnection next lanes statistics _)
  have hp : n.connection.pendingLanes 1 = byteFrame 1 :: fs := hn ▸ rfl
  simp only [step, tick, advanceConnection, hb, Outcome.next, sendPending, hs, Node.modify_connection, hp]
  have ht : ∀ ls', { n.connection with lanes := ls', pendingLanes := update n.connection.pendingLanes 1 fs } =
      busyConnection next ls' statistics fs := by
    intro ls'
    rw [hn]
    simp only [busyConnection, update_idem]
  exact sendFrame_busyConnection (ht _)

/-- A connection whose lane one is heavier than lane two and not behind it, with deficits that many ticks do not wrap. -/
structure Heavier (ticks : Nat) (lanes : Lane → LaneState) : Prop where
  weight : (lanes 1).priorityWeight = 8 ∧ (lanes 2).priorityWeight = 4
  reserve : (lanes 1).reservedBandwidthBytesPerSecond = 0 ∧ (lanes 2).reservedBandwidthBytesPerSecond = 0
  deficit : (lanes 2).deficit.toNat ≤ (lanes 1).deficit.toNat
  room : (lanes 1).deficit.toNat + 8 * ticks < 2 ^ 64

theorem waiting_busyConnection (next : UInt64) (lanes : Lane → LaneState) (statistics : Statistics) (frame : OutgoingFrame)
    (fs : List OutgoingFrame) : (busyConnection next lanes statistics (frame :: fs)).waiting = {1, 2} := by
  ext lane
  show update (update (fun _ => []) 2 [byteFrame 2]) 1 (frame :: fs) lane ≠ [] ↔ lane = 1 ∨ lane = 2
  by_cases h1 : lane = 1
  · simp [h1]
  · by_cases h2 : lane = 2
    · simp [h2]
    · simp [h1, h2]

theorem Heavier.selects (h : Heavier (ticks + 1) lanes) (next : UInt64)
    (statistics : Statistics) (frame : OutgoingFrame) (fs : List OutgoingFrame) :
    Selects (busyConnection next lanes statistics (frame :: fs)) := by
  have hw := waiting_busyConnection next lanes statistics frame fs
  have hr := h.room
  have hd := h.deficit
  refine ⟨rfl, ?_, ?_, ?_⟩
  · rw [hw]
    rintro lane (rfl | rfl)
    · exact h.weight.1 ▸ (by decide)
    · exact h.weight.2 ▸ (by decide)
  · rw [hw]
    rintro lane (rfl | rfl)
    · exact h.reserve.1
    · exact h.reserve.2
  · rw [hw]
    rintro lane (rfl | rfl)
    · show (lanes 1).deficit.toNat + (lanes 1).priorityWeight.toNat < 2 ^ 64
      rw [h.weight.1]
      show _ + 8 < _
      omega
    · show (lanes 2).deficit.toNat + (lanes 2).priorityWeight.toNat < 2 ^ 64
      rw [h.weight.2]
      show _ + 4 < _
      omega

/-- A tick selects lane one, and leaves it ahead. -/
theorem Heavier.tick (h : Heavier (ticks + 1) lanes) (now next : UInt64)
    (statistics : Statistics) (frame : OutgoingFrame) (fs : List OutgoingFrame) :
    (selectLane now (busyConnection next lanes statistics (frame :: fs))).1 = some 1 ∧
      ∀ ls', shares ls' = shares (selectLane now (busyConnection next lanes statistics (frame :: fs))).2 →
        Heavier ticks ls' := by
  have hsl := h.selects next statistics frame fs
  have hw := waiting_busyConnection next lanes statistics frame fs
  have he : 1 ∈ (busyConnection next lanes statistics (frame :: fs)).waiting := by rw [hw]; simp
  obtain ⟨s, hs⟩ := hsl.exists_selected he now
  obtain ⟨ht, hk⟩ := hsl.turn hs
  rw [hw, show (busyConnection next lanes statistics (frame :: fs)).lanes = lanes from rfl] at ht
  have hw1 : weights (shares lanes) 1 = 8 := congrArg toNat h.weight.1
  have hw2 : weights (shares lanes) 2 = 4 := congrArg toNat h.weight.2
  have hd : deficits (shares lanes) 2 ≤ deficits (shares lanes) 1 := h.deficit
  have hr : deficits (shares lanes) 1 + 8 * (ticks + 1) < 2 ^ 64 := h.room
  obtain rfl | rfl : s = 1 ∨ s = 2 := ht.mem
  · refine ⟨hs, fun ls' hsh => ?_⟩
    have hsr := ht.served
    have ho := ht.others 2 (.inr rfl) (by decide)
    have hk1 := hk 1
    have hk2 := hk 2
    rw [← hsh] at hsr ho hk1 hk2
    have hn1 : deficits (shares ls') 1 = (ls' 1).deficit.toNat := rfl
    have hn2 : deficits (shares ls') 2 = (ls' 2).deficit.toNat := rfl
    refine ⟨⟨hk1.1.trans h.weight.1, hk2.1.trans h.weight.2⟩, ⟨hk1.2.trans h.reserve.1, hk2.2.trans h.reserve.2⟩, ?_, ?_⟩
    · omega
    · omega
  · -- lane two would have to be ahead
    have hms := ht.most 1 (.inl rfl)
    omega

/-- Lane one is selected at every tick. -/
theorem servedLanes_tick (ticks : Nat) : ∀ {n : Node} {next : UInt64} {lanes : Lane → LaneState} {statistics : Statistics},
    n.connection = busyConnection next lanes statistics (replicate ticks (byteFrame 1)) → Heavier ticks lanes →
    Meets (step plainCtx) (Backlogged plainCtx {1, 2} {1, 2}) n (replicate ticks tick) ∧
      servedLanes plainCtx n (replicate ticks tick) = replicate ticks 1 := by
  induction ticks with
  | zero => exact fun _ _ => ⟨trivial, rfl⟩
  | succ ticks ih =>
    intro n next lanes statistics hn hl
    rw [replicate_succ] at hn
    have hs : selecting plainCtx n tick = some n := selecting_tick (hn ▸ undisturbed_busyConnection next lanes statistics _)
    obtain ⟨hsl, hh⟩ := hl.tick 1000 next statistics (byteFrame 1) (replicate ticks (byteFrame 1))
    rw [← hn] at hsl hh
    obtain ⟨l', s', hst⟩ := step_busyConnection hn hsl
    have ha := sharesAfter_step plainCtx n tick rfl
    rw [hs] at ha
    have hl' : Heavier ticks l' := by
      refine hh l' ?_
      exact (congrArg (fun c => shares c.lanes) hst).symm.trans ha.2
    obtain ⟨hmt, hsr⟩ := ih hst hl'
    have hw := waiting_busyConnection next lanes statistics (byteFrame 1) (replicate ticks (byteFrame 1))
    rw [← hn] at hw
    refine ⟨⟨⟨rfl, fun m hm => ?_⟩, hmt⟩, ?_⟩
    · obtain rfl : n = m := some.inj (hs.symm.trans hm)
      exact ⟨hn ▸ hl.selects next statistics _ _, hw.ge, hw.le⟩
    · have hnow : served plainCtx n tick = some 1 := by
        rw [served, hs]
        exact hsl
      rw [replicate_succ, servedLanes, hnow, hsr]
      rfl

/-- Lanes one and two have the same weight and four frames each. -/
def evenLanes : Node :=
  { openNode with
    connection := { busyConnection 1 (fun _ => { priorityWeight := 3 }) {} [] with
      pendingLanes := fun lane => if lane = 1 ∨ lane = 2 then replicate 4 (byteFrame lane.val.toUInt8) else [] } }

/-- In seven selections, one more than the bound, each of them is selected, and none much more often than the other. -/
theorem service_of_equal_weights_ticks :
    let log : List Lane := [1, 2, 1, 2, 1, 2, 1]
    servedLanes plainCtx evenLanes (replicate 7 tick) = log ∧ (∀ lane ∈ ({1, 2} : Set Lane), lane ∈ log) ∧
      ∀ lane ∈ ({1, 2} : Set Lane), ∀ lane' ∈ ({1, 2} : Set Lane), 3 * log.count lane ≤ 3 * (log.count lane' + 2) := by
  intro log
  have hs : servedLanes plainCtx evenLanes (replicate 7 tick) = log := by decide +kernel
  have hmt : Meets (step plainCtx) (Backlogged plainCtx {1, 2} {1, 2}) evenLanes (replicate 7 tick) := by decide +kernel
  obtain ⟨hmem, hcount⟩ := (service_of_equal_weights plainCtx {1, 2} {1, 2} evenLanes (replicate 7 tick) hmt (fun _ => id)
    (by decide +kernel)).1 (fun _ _ _ _ => rfl) [] log [] hs
  refine ⟨hs, fun lane hl => hmem lane hl ?_, hcount⟩
  revert lane
  decide +kernel

/-- Lanes one and two of a new connection wait, with the weights they have by default and as many frames as there are ticks. -/
def unequalLanes (ticks : ℕ) : Node := ⟨busyConnection 1 openNode.connection.lanes {} (replicate ticks (byteFrame 1)), [], [], []⟩

/-- However many lanes are selected, as long as no deficit wraps, lane two is not selected once. -/
theorem servedLanes_unequalLanes {ticks : ℕ} (ht : 8 * ticks < 2 ^ 64) :
    Meets (step plainCtx) (Backlogged plainCtx {1, 2} {1, 2}) (unequalLanes ticks) (replicate ticks tick) ∧
      servedLanes plainCtx (unequalLanes ticks) (replicate ticks tick) = replicate ticks 1 := by
  have hz : (openNode.connection.lanes 1).deficit.toNat = 0 := rfl
  have hl : Heavier ticks openNode.connection.lanes := ⟨⟨rfl, rfl⟩, ⟨rfl, rfl⟩, le_refl 0, by omega⟩
  exact servedLanes_tick ticks rfl hl

/-- In 2 ^ 60 selections with the default weights eight and four, lane two, which waits all the time, is not selected once. -/
theorem service_of_default_weights :
    weights (shares (unequalLanes (2 ^ 60)).connection.lanes) 1 = 8 ∧ weights (shares (unequalLanes (2 ^ 60)).connection.lanes) 2 = 4 ∧
      Meets (step plainCtx) (Backlogged plainCtx {1, 2} {1, 2}) (unequalLanes (2 ^ 60)) (replicate (2 ^ 60) tick) ∧
      (servedLanes plainCtx (unequalLanes (2 ^ 60)) (replicate (2 ^ 60) tick)).length = 2 ^ 60 ∧
      2 ∉ servedLanes plainCtx (unequalLanes (2 ^ 60)) (replicate (2 ^ 60) tick) := by
  obtain ⟨hmt, hs⟩ := servedLanes_unequalLanes (by decide : 8 * 2 ^ 60 < 2 ^ 64)
  refine ⟨rfl, rfl, hmt, ?_, ?_⟩
  · rw [hs, length_replicate]
  · rw [hs]
    intro hm
    exact absurd (eq_of_mem_replicate hm) (by decide)

end Libft.Networking
