import Libft.Networking.Theorems.Accounting

/-!
# Reserved credit and records

The flow credit that a connection has reserved is that of the reliable frames it still holds, waiting or sent, and the statistics of
reassembly are those of the records. A frame that was taken out to be sent and finds no memory to go back leaves its credit reserved.
-/

namespace Libft.Networking

open List Function

/-! ## Reserved credit -/

/-- The reserved credit is that of the frames that wait and of those that are sent. -/
def Core.CreditCounted (c : Core) : Prop :=
  c.reserved = ∑ lane, Core.reservation (c.pending lane) + Core.reservation (sentFrames c.sent)

section CreditCounted

variable {Γ : Ctx} {c c' : Core} {lane : Lane} {frame : OutgoingFrame} {tl : List OutgoingFrame} {cap : Nat}

open Networking.Core

/-- The credit of the lanes, when the frames of one of them change. -/
theorem sum_reservation_update (pending : Lane → List OutgoingFrame) (lane : Lane) (fs : List OutgoingFrame) :
    ∑ l, reservation (update pending lane fs l) + reservation (pending lane) =
      ∑ l, reservation (pending l) + reservation fs := by
  rw [← sum_update (fun l => reservation (pending l)) lane (reservation fs)]
  refine congrArg (· + _) (Finset.sum_congr rfl fun l _ => ?_)
  by_cases hl : l = lane
  · subst hl
    rw [update_self, update_self]
  · rw [update_of_ne hl, update_of_ne hl]

/-- The first frame of a lane takes its credit with it. -/
theorem sum_reservation_pop (hl : c.pending lane = frame :: tl) :
    ∑ l, reservation (update c.pending lane tl l) + credit frame = ∑ l, reservation (c.pending l) := by
  have hs := sum_reservation_update c.pending lane tl
  rw [hl, reservation_cons] at hs
  omega

/-- The frames of a message reserve all of it, if it is reliable. -/
theorem reservation_fragments (hc : cap ≠ 0) (opt : SendOptions) (mi seq now : UInt64)
    (data : Bytes) : reservation (fragments cap opt mi seq now data) =
      if isReliable opt.delivery = true then data.length else 0 := by
  have hbs := payloadBytes_fragments hc opt mi seq now data
  have hd : ∀ frame ∈ fragments cap opt mi seq now data, frame.delivery = opt.delivery := by
    intro frame hf
    obtain ⟨i, -, rfl⟩ := mem_map.1 hf
    rfl
  generalize fragments cap opt mi seq now data = frames at hbs hd
  by_cases hr : isReliable opt.delivery = true
  · rw [if_pos hr, ← hbs]
    refine congrArg List.sum (map_congr_left fun frame hf => ?_)
    rw [credit, hd frame hf, if_pos hr]
  · rw [if_neg hr]
    refine sum_eq_zero fun x hx => ?_
    obtain ⟨frame, hf, rfl⟩ := mem_map.1 hx
    rw [credit, hd frame hf, if_neg hr]

theorem Core.CreditCounted.transmit (h : c.CreditCounted) {d : Endpoint} {now : UInt64} {data : Bytes} {ch : SecureChannel}
    (hl : c.pending lane = frame :: tl) :
    (c.transmit d now lane frame tl data ch).CreditCounted := by
  have hp := sum_reservation_pop hl
  by_cases hr : isReliable frame.delivery = true
  · simp only [CreditCounted, Core.transmit, Core.emit, hr, if_true, sentFrames, map_append, map_cons, map_nil,
      reservation_append, reservation_cons, reservation_nil] at h ⊢
    omega
  · -- an unreliable frame had nothing reserved
    have hz : credit frame = 0 := if_neg hr
    simp only [CreditCounted, Core.transmit, Core.emit, hr] at h ⊢
    rw [if_neg Bool.false_ne_true]
    omega

theorem Core.CreditCounted.enqueue (h : c.CreditCounted) (hc : cap ≠ 0) (now : UInt64)
    (opt : SendOptions) (seq : UInt64) (data : Bytes) : (c.enqueue cap now opt seq data).CreditCounted := by
  have hs := sum_reservation_update c.pending (laneIndex opt.lane)
    (c.pending (laneIndex opt.lane) ++ fragments cap opt c.nextMessage seq now data)
  rw [reservation_append, reservation_fragments hc] at hs
  simp only [CreditCounted, Core.enqueue] at h ⊢
  by_cases hr : isReliable opt.delivery = true
  · rw [if_pos hr] at hs ⊢
    omega
  · rw [if_neg hr] at hs ⊢
    omega

theorem Core.CreditCounted.acknowledge (h : c.CreditCounted) (a : SentPacket → Bool) : (c.acknowledge a).CreditCounted := by
  have hs := sum_map_filter_add (fun p : SentPacket => credit p.frame) c.sent a
  simp only [CreditCounted, Core.acknowledge, sentFrames, reservation, map_map, comp_def] at h ⊢
  omega

/-- Every step keeps the reserved credit counted, if a frame that is not put back had none. -/
theorem Core.CreditCounted.step {l : Label} (h : c.CreditCounted) (hs : Step Γ c l c')
    (hf : ∀ frame, l = .forget frame → credit frame = 0) : c'.CreditCounted := by
  cases hs with
  | transmit d now lane frame tl data ch hl => exact h.transmit hl
  | retransmit d now i p data ch hp =>
    have ht := sum_map_set (fun p : SentPacket => credit p.frame)
      { p with sentAt := now, packetNumber := c.nextPacket, wireSize := data.length, retransmitted := true } hp
    simp only [CreditCounted, Core.retransmit, Core.emit, sentFrames, reservation, map_map, comp_def] at h ht ⊢
    omega
  | expireSent i p hp =>
    have he := sum_map_eraseIdx (fun p : SentPacket => credit p.frame) hp
    simp only [CreditCounted, sentFrames, reservation, map_map, comp_def] at h ⊢
    omega
  | drop lane frame tl hl =>
    have hpop := sum_reservation_pop hl
    simp only [CreditCounted] at h ⊢
    omega
  | forget lane frame tl hl =>
    have hpop := sum_reservation_pop hl
    have hz := hf frame rfl
    simp only [CreditCounted] at h ⊢
    omega
  | abort => simp [CreditCounted, sentFrames]
  | enqueue now o seq data hl hsz hc => exact h.enqueue hc now o seq data
  | acknowledge lr r => exact h.acknowledge _
  | _ => exact h

end CreditCounted

/-! ## Records -/

/-- The statistics of reassembly are those of the records. -/
structure Core.RecordsCounted (c : Core) : Prop where
  bytes : c.reassemblyBytes = heldBytes c.reassembly
  messages : c.reassemblyMessages = c.reassembly.length

variable {l : Label}

theorem Core.RecordsCounted.step {Γ : Ctx} {c c' : Core} (h : c.RecordsCounted) (hs : Step Γ c l c') : c'.RecordsCounted := by
  refine ⟨hs.reassemblyBytes_eq h.bytes, ?_⟩
  have hc := h.messages
  cases hs with
  | abort => rfl
  | openRecord rec =>
    rw [length_append, length_singleton, ← hc]
  | store i rec f hr =>
    rw [Core.store, length_set]
    exact hc
  | complete i rec hr =>
    rw [length_eraseIdx_of_lt (List.getElem?_eq_some_iff.1 hr).1, ← hc]
  | expireRecords expired =>
    have hl := length_eq_length_filter_add (l := c.reassembly) expired
    simp only [hc]
    omega
  | _ => exact hc

/-! ## The two together -/

/-- A connection that holds neither frames nor records, with nothing reserved or counted. -/
def CreditFresh (c : ConnectionRecord) : Prop :=
  (∀ lane, c.pendingLanes lane = []) ∧ c.sent = [] ∧ c.reliableFlowReserved = 0 ∧ c.reassembly = [] ∧
    c.statistics.reassemblyBytes = 0 ∧ c.statistics.reassemblyMessages = 0

/-- When the connection advances, a frame that was taken out finds memory to go back. -/
def FramesReturn (_ : Node) (i : Input) : Prop := i.call.advances = true → i.env.ok .requeue = true

instance FramesReturn.decidable (n : Node) (i : Input) : Decidable (FramesReturn n i) :=
  inferInstanceAs (Decidable (_ = true → _ = true))

/-- Where frames return, no call forgets one. -/
theorem FramesReturn.ne_forget {Γ : Ctx} {n : Node} {i : Input} (h : FramesReturn n i) (hl : CallLabel Γ n i l)
    (frame : OutgoingFrame) : l ≠ .forget frame := by
  rintro rfl
  obtain ⟨call, e⟩ := i
  cases call with
  | advance | poll => exact absurd ((h rfl).symm.trans hl) nofun
  | send data o => cases hl
  | _ => exact hl.elim

/-- The statistics of reassembly are always those of the records. As long as frames that are taken out find memory to go back, the
reserved credit is the bytes of the reliable frames that wait in the lanes and in the sent list. -/
theorem reliableFlowReserved_eq_reservation (Γ : Ctx) (n : Node) (hn : CreditFresh n.connection) (inputs : List Input) :
    let c := (run Γ n inputs).connection
    (Meets (step Γ) FramesReturn n inputs →
      c.reliableFlowReserved = ∑ lane, Core.reservation (c.pendingLanes lane) + Core.reservation (sentFrames c.sent)) ∧
    c.statistics.reassemblyBytes = heldBytes c.reassembly ∧ c.statistics.reassemblyMessages = c.reassembly.length := by
  obtain ⟨hp, hsn, hrs, hr, hbs, hms⟩ := hn
  have hcr : (core n).CreditCounted := by simp [Core.CreditCounted, core, hp, hsn, hrs, sentFrames]
  have hrc : (core n).RecordsCounted := by constructor <;> simp [core, hr, hbs, hms, heldBytes]
  refine ⟨fun hmt => ?_, ?_⟩
  · have hrun : (core (run Γ n inputs)).CreditCounted := run_invariant (fun n i hi c l c' hs hl hc =>
      hc.step hs fun frame hf => absurd hf (hi.ne_forget hl frame)) hcr hmt
    exact hrun
  · have hrun : (core (run Γ n inputs)).RecordsCounted := run_invariant (A := fun _ _ => True)
      (fun _ _ _ _ _ _ hs _ hc => hc.step hs) hrc (Meets.of_forall (fun _ _ => trivial) n inputs)
    exact ⟨hrun.bytes, hrun.messages⟩

/-- Two messages are queued, one of them is sent, and a fragment of the peer's is held. -/
theorem reliableFlowReserved_eq_after_send :
    let inputs : List Input := [⟨.send [1, 2, 3] {}, { now := 1000 }⟩, ⟨.send [4, 5] { lane := 1 }, { now := 1000 }⟩,
      ⟨.advance, { now := 1000 }⟩, ⟨.process ⟨[1]⟩ (fragmentDatagram 1 8 0), { now := 1000 }⟩]
    let c := (run plainCtx openNode inputs).connection
    c.reliableFlowReserved = 5 ∧
      c.reliableFlowReserved = ∑ lane, Core.reservation (c.pendingLanes lane) + Core.reservation (sentFrames c.sent) ∧
      c.statistics.reassemblyBytes = heldBytes c.reassembly ∧ c.statistics.reassemblyMessages = c.reassembly.length := by
  intro inputs c
  have h := reliableFlowReserved_eq_reservation plainCtx openNode ⟨fun _ => rfl, rfl, rfl, rfl, rfl, rfl⟩ inputs
  exact ⟨by decide, h.1 (by decide), h.2⟩

/-- A frame is taken out, the socket refuses it, and there is no memory to put it back: it is gone, and its three bytes stay reserved. -/
theorem reliableFlowReserved_after_lost_frame :
    let inputs : List Input := [⟨.send [1, 2, 3] {}, { now := 1000 }⟩,
      ⟨.advance, { now := 1000, ok := fun site => site ≠ .send .frame ∧ site ≠ .requeue }⟩]
    let c := (run plainCtx openNode inputs).connection
    (∀ lane, c.pendingLanes lane = []) ∧ c.sent = [] ∧ c.reliableFlowReserved = 3 ∧
      c.reliableFlowReserved ≠ ∑ lane, Core.reservation (c.pendingLanes lane) + Core.reservation (sentFrames c.sent) := by
  decide

end Libft.Networking
