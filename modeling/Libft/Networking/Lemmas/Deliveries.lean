import Libft.Networking.Lemmas.Senders

/-!
# Acknowledging and delivering are steps

`apply_ack` is one step. `deliver` hands a message to the application, keeps it until it is next, or drops it; each message that its
delivery sets free is one step more.
-/

namespace Libft.Networking

open Networking.Core Does Function

/-! ## Acknowledgement -/

/-- The node with a packet acknowledged. -/
theorem core_acknowledgePacket (now : UInt64) (p : SentPacket) (n : Node) :
    core (n.modify fun c => acknowledgePacket now c p) =
      { core n with
        bytesInFlight := (core n).bytesInFlight - p.wireSize
        queueBytes := (core n).queueBytes - p.frame.payload.length
        laneQueued := update (core n).laneQueued (laneIndex p.frame.lane)
          ((core n).laneQueued (laneIndex p.frame.lane) - p.frame.payload.length)
        reserved := (core n).reserved - credit p.frame } := by
  unfold acknowledgePacket credit
  by_cases hr : p.retransmitted = false <;> by_cases hd : isReliable p.frame.delivery = true <;>
  · simp only [hr, hd, if_true]
    rfl

/-- The bytes of a lane without those of one of its packets, and of those behind it. -/
theorem update_sub_sum (qs : Lane → Nat) (p : SentPacket) (done : List SentPacket) :
    (fun lane => update qs (laneIndex p.frame.lane) (qs (laneIndex p.frame.lane) - p.frame.payload.length) lane -
        ((done.filter fun p => laneIndex p.frame.lane = lane).map fun p => p.frame.payload.length).sum) =
      fun lane => qs lane -
        (((p :: done).filter fun p => laneIndex p.frame.lane = lane).map fun p => p.frame.payload.length).sum := by
  funext lane
  by_cases hl : laneIndex p.frame.lane = lane
  · subst hl
    simp [Nat.sub_sub]
  · simp [hl, update_of_ne (Ne.symm hl)]

theorem core_foldl_acknowledgePacket (now : UInt64) (done : List SentPacket) (n : Node) :
    core (n.modify fun c => done.foldl (acknowledgePacket now) c) =
      { core n with
        bytesInFlight := (core n).bytesInFlight - (done.map SentPacket.wireSize).sum
        queueBytes := (core n).queueBytes - (done.map fun p => p.frame.payload.length).sum
        laneQueued := fun lane => (core n).laneQueued lane -
          ((done.filter fun p => laneIndex p.frame.lane = lane).map fun p => p.frame.payload.length).sum
        reserved := (core n).reserved - reservation (done.map SentPacket.frame) } := by
  induction done generalizing n with
  | nil => rfl
  | cons p done ih =>
    have hih := ih (n.modify fun c => acknowledgePacket now c p)
    rw [core_acknowledgePacket] at hih
    rw [← update_sub_sum]
    simp only [List.map_cons, List.sum_cons, reservation_cons, ← Nat.sub_sub]
    exact hih

/-- What an acknowledgement does. -/
theorem core_applyAck (now top : UInt64) (rs : List (UInt16 × UInt16)) (n : Node) :
    core (n.modify fun c => applyAck now c top rs) =
      (core n).acknowledge fun p => isAcknowledged top rs p.packetNumber :=
  congrArg (fun c : Core => { c with sent := n.connection.sent.filter fun p => !isAcknowledged top rs p.packetNumber })
    (core_foldl_acknowledgePacket now (n.connection.sent.filter fun p => isAcknowledged top rs p.packetNumber) n)

/-- What recording a number does. -/
theorem core_recordReceived (num : UInt64) (n : Node) : core (n.modify fun c => c.recordReceived num) = (core n).record num := by
  unfold ConnectionRecord.recordReceived record
  cases h : recordPacket num n.connection.receivedRanges with
  | mk fresh rs =>
    have hr : recordPacket num (core n).ranges = (fresh, rs) := h
    cases fresh with
    | true | false => simp [core, Node.modify, h]

/-! ## Delivery -/

/-- What releasing the messages that wait may do. -/
def Releases (e : Env) : Label → Prop
  | .release _ => True
  | .lose _ => ∃ index, e.ok (.released index) = false
  | _ => False

/-- What delivering a message may do. -/
def Delivers (e : Env) (single : Bool) (m : ReceivedMessage) : Label → Prop
  | .hear m' => m' = m
  | .deliver single' m' | .buffer single' m' => single' = single ∧ m' = m
  | .release _ => True
  | .lose _ => ∃ index, e.ok (.released index) = false
  | _ => False

theorem Releases.delivers {e : Env} {single : Bool} {m : ReceivedMessage} {l : Label} (h : Releases e l) : Delivers e single m l := by
  cases l <;> first | exact h | exact h.elim

section Delivery

variable {Γ : Ctx} {e : Env} {n : Node}

/-- A channel that has its record moves on. -/
theorem core_setNextReliable {ch : UInt32} (h : (n.connection.channels.any fun s => s.channel = ch) = true) :
    core (n.modify fun c => { c with
      channels := setNextReliable ch ((channelState c.channels ch).nextReliableSequence + 1) c.channels }) =
      (core n).advance ch :=
  congrArg (fun cursor => { core n with cursor := cursor })
    (funext fun x => nextReliableSequence_setNextReliable h
      ((channelState n.connection.channels ch).nextReliableSequence + 1) x)

theorem performs_releasePending (ch : UInt32) (wt : Nat) :
    ∀ n : Node, (n.connection.channels.any fun s => s.channel = ch) = true →
      Performs Γ (Releases e) 0 n (releasePending e ch wt n) := by
  induction wt with
  | zero => exact fun _ _ => .refl _
  | succ wt ih =>
    intro n ha
    unfold releasePending
    dsimp only
    split
    · exact .refl _
    · rename_i m hf
      have hc := core_setNextReliable ha
      have hnx (n' : Node) (hn' : n'.connection.channels = n.connection.channels) := ih (n'.modify fun c => { c with
        orderedPending := c.orderedPending.eraseP fun m' => decide (m'.channel = ch) &&
          decide (m'.sequence = (channelState n.connection.channels ch).nextReliableSequence)
        channels := setNextReliable ch ((channelState n.connection.channels ch).nextReliableSequence + 1)
          c.channels }) (any_setNextReliable _ (hn' ▸ ha))
      -- the message that is next leaves the list; whether it is delivered depends on the memory for it
      by_cases hok : e.ok (.released wt) = true
      · simp only [hok, if_true]
        refine trans (k := 0) (m := 0) (.single (.release (core n) m ch hf) trivial rfl) ?_
        have hcr := congrArg (fun c : Core => { c with
          orderedPending := c.orderedPending.eraseP ((core n).isNext ch)
          received := c.received ++ [m] }) hc
        exact Eq.mp (congrArg (fun c => Does (Step Γ) Label.weight (Releases e) 0 c (core _)) hcr) (hnx (n.receiveMessage m) rfl)
      · simp only [hok]
        refine trans (k := 0) (m := 0) (.single (.lose (core n) m ch hf) ⟨wt, by simpa using hok⟩ rfl) ?_
        have hcr := congrArg (fun c : Core => { c with
          orderedPending := c.orderedPending.eraseP ((core n).isNext ch) }) hc
        exact Eq.mp (congrArg (fun c => Does (Step Γ) Label.weight (Releases e) 0 c (core _)) hcr) (hnx n rfl)

variable {single : Bool} {m : ReceivedMessage}

theorem performs_deliverReliable (ha : (n.connection.channels.any fun s => s.channel = m.channel) = true)
    (hm : m.delivery = .reliableOrdered) (ho : (core n).Origin single m) :
    Performs Γ (Delivers e single m) 0 n (deliverReliable e n m) := by
  unfold deliverReliable
  dsimp only
  split
  · exact .refl _
  rename_i hl
  split
  · rename_i hh
    split
    · exact .single (.buffer (core n) single m hm ho hh) ⟨rfl, rfl⟩ rfl
    · exact .refl _
  rename_i hh
  split
  · exact .refl _
  -- the message is next: it is delivered, and those that wait for it follow
  have hnx : m.sequence = (core n).cursor m.channel := UInt64.le_antisymm (UInt64.not_lt.1 hh) (UInt64.not_lt.1 hl)
  refine trans (k := 0) (m := 0) (.single (.deliver (core n) single m hm ho hnx) ⟨rfl, rfl⟩ rfl) ?_
  have hr := performs_releasePending (Γ := Γ) (e := e) m.channel n.connection.orderedPending.length
    ((n.receiveMessage m).modify fun c => { c with
      channels := setNextReliable m.channel ((channelState n.connection.channels m.channel).nextReliableSequence + 1)
        c.channels }) (any_setNextReliable _ ha)
  have hc := congrArg (fun c : Core => { c with received := c.received ++ [m] }) (core_setNextReliable ha)
  exact Eq.mp (congrArg (fun c => Does (Step Γ) Label.weight (Delivers e single m) 0 c (core _)) hc)
    (hr.imp fun _ => Releases.delivers)

theorem performs_deliver (ho : (core n).Origin single m) : Performs Γ (Delivers e single m) 0 n (deliver e n m) := by
  unfold deliver
  split
  · exact .refl _
  rename_i channels hf
  obtain ⟨hs, ha⟩ := findChannelState_eq_some hf
  have hc : core (n.modify fun c => { c with channels := channels }) = core n := by
    simp only [core, Node.modify_connection, Node.modify_received, Node.modify_wire, hs]
  generalize hn : n.modify (fun c => { c with channels := channels }) = n' at hc
  have hchs : n'.connection.channels = channels := by
    rw [← hn]
    rfl
  dsimp only
  rw [Performs, ← hc]
  have hr (hm : m.delivery ≠ .reliableOrdered) (n'' : Node) :
      Performs Γ (Delivers e single m) 0 n'' (if e.ok .received = true then n''.receiveMessage m else n'') := by
    split
    · exact .single (.hear (core n'') m hm) rfl rfl
    · exact .refl _
  split
  · rename_i hd
    split
    · exact .refl _
    · have hl : core (n'.modify fun c => { c with
          channels := setLatestUnreliable m.channel m.sequence c.channels }) = core n' :=
        congrArg (fun cursor => { core n' with cursor := cursor })
          (funext fun x => nextReliableSequence_setLatestUnreliable n'.connection.channels m.channel m.sequence x)
      rw [← hl]
      exact hr (by rw [hd]; decide) _
  · rename_i hd
    exact hr (by rw [hd]; decide) n'
  · rename_i hd
    exact performs_deliverReliable (hchs ▸ ha) hd (hc ▸ ho)

theorem performs_deliverAndNotify (ho : (core n).Origin single m) : Performs Γ (Delivers e single m) 0 n (deliverAndNotify e n m) := by
  have hd := performs_deliver (Γ := Γ) (e := e) ho
  unfold deliverAndNotify
  dsimp only
  split
  · exact hd
  · exact hd

/-- A message that was delivered stays so while others are released. -/
theorem mem_received_releasePending {ch : UInt32} {wt : Nat} :
    ∀ {n : Node}, m ∈ n.received → m ∈ (releasePending e ch wt n).received := by
  induction wt with
  | zero => exact id
  | succ wt ih =>
    intro n hm
    unfold releasePending
    dsimp only
    split
    · exact hm
    · apply ih
      split
      · exact List.mem_append_left _ hm
      · exact hm

/-- With memory, a reliable message that is delivered is old, and then nothing changes, or it waits or was received. -/
theorem deliverAndNotify_settles (hm : m.delivery = .reliableOrdered) (hl : e.ok .channelState = true) (hb : e.ok .buffered = true)
    (hr : e.ok .received = true) :
    m.sequence < (core n).cursor m.channel ∧ core (deliverAndNotify e n m) = core n ∨
      m ∈ (core (deliverAndNotify e n m)).orderedPending ∨ m ∈ (core (deliverAndNotify e n m)).received := by
  have hc : core (deliverAndNotify e n m) = core (deliver e n m) := by
    unfold deliverAndNotify
    dsimp only
    split <;> rfl
  rw [hc]
  unfold deliver
  cases hfn : findChannelState (e.ok .channelState) n.connection.channels m.channel with
  | none =>
    unfold findChannelState at hfn
    rw [hl] at hfn
    split at hfn <;> cases hfn
  | some channels =>
    have hs := (findChannelState_eq_some hfn).1
    simp only [hm, deliverReliable, Node.modify_connection, hs, hb, hr, if_true, Bool.true_eq_false, if_false]
    split
    · rename_i hw
      refine .inl ⟨hw, ?_⟩
      simp only [core, Node.modify_connection, Node.modify_received, Node.modify_wire, hs]
    split
    · exact .inr (.inl (List.mem_append_right _ (List.mem_singleton_self m)))
    · exact .inr (.inr (mem_received_releasePending (List.mem_append_right _ (List.mem_singleton_self m))))

/-- Delivering leaves the records alone. -/
theorem Delivers.reassembly_eq {n' : Node} {k : Nat} (h : Performs Γ (Delivers e single m) k n n') :
    (core n').reassembly = (core n).reassembly := by
  refine invariant (I := fun c => c.reassembly = (core n).reassembly) (fun c l c' hs hl hc => ?_) h rfl
  cases hs <;> first | exact hl.elim | exact hc

end Delivery

end Libft.Networking
