import Libft.Networking.Lemmas.Senders

/-!
# An advance is a sequence of steps

Stage by stage, what `advance_connection` may do, in terms of the state the call starts from: which sent packets expire, which frame is
dropped, when the connection is aborted, and when a packet is sealed that does not leave.
-/

namespace Libft.Networking

open Function List Networking.Core Sends

variable {Γ : Ctx} {e : Env} {n n' m : Node} {l : Label} {p : SentPacket} {bs : Bytes}

/-! ## Stages -/

/-- A stage of a call: what it may do, and what it may do when the call goes on after it. -/
structure Stage (Γ : Ctx) (P Q : Label → Prop) (packets : Nat) (n : Node) (o : Outcome) : Prop where
  performs : Performs Γ P packets n o.1
  goesOn : o.2 = none → Performs Γ Q packets n o.1

namespace Stage

variable {P Q : Label → Prop} {o : Outcome} {k m : Nat}

theorem of_performs (hQP : ∀ l, Q l → P l) (h : Performs Γ Q k n o.1) : Stage Γ P Q k n o := ⟨h.imp hQP, fun _ => h⟩

theorem goOn_same (hc : core o.1 = core n) : Stage Γ P Q k n o := ⟨.of_eq hc, fun _ => .of_eq hc⟩

theorem of_return {code : FtError} (h : Performs Γ P k n n') : Stage Γ P Q k n (return_ n' code) := ⟨h, nofun⟩

/-- A stage and what follows it. -/
theorem next (hQP : ∀ l, Q l → P l) {tl : Node → Outcome} (h : Stage Γ P Q k n o)
    (hr : o.2 = none → Stage Γ P Q m o.1 (tl o.1)) : Stage Γ P Q (k + m) n (o.next tl) := by
  obtain ⟨n', code⟩ := o
  cases code with
  | some code => exact ⟨h.performs.le (Nat.le_add_right k m), nofun⟩
  | none =>
    have hgo := h.goesOn rfl
    have hnx := hr rfl
    exact ⟨(hgo.imp hQP).trans hnx.performs, fun hno => hgo.trans (hnx.goesOn hno)⟩

end Stage

/-! ## Timers -/

/-- What the stages before the reassembly records do when the call goes on after them. -/
def Quiet (e : Env) : Label → Prop
  | .emit _ | .greet | .clearPrevious => True
  | .burn => ∃ place, e.ok (.send place) = false
  | _ => False

/-- Quiet steps change the channel, the packet number and the wire, and nothing else. -/
theorem Quiet.keeps {k : Nat} (h : Performs Γ (Quiet e) k n n') :
    ∃ ch num wire, core n' = { core n with channel := ch, nextPacket := num, wire := wire } := by
  refine Does.invariant (I := fun c => ∃ ch num wire,
    c = { core n with channel := ch, nextPacket := num, wire := wire }) (fun c l c' hs hl hc => ?_) h ⟨_, _, _, rfl⟩
  obtain ⟨ch, num, wire, rfl⟩ := hc
  cases hs <;> first | exact hl.elim | exact ⟨_, _, _, rfl⟩

theorem Sends.quiet (h : Sends e l) : Quiet e l := by
  cases l <;> first | exact h | exact h.elim

theorem Greets.quiet (h : Greets l) : Quiet e l := by
  cases l <;> first | exact h | exact h.elim

/-- What the stages before the reassembly records do: an idle connection may be aborted. -/
def TimerLabel (Γ : Ctx) (e : Env) (n : Node) : Label → Prop
  | .emit _ | .greet | .clearPrevious => True
  | .burn => ∃ place, e.ok (.send place) = false
  | .abort queueBytes => isIdle Γ.cfg e.now n.connection = true ∧ queueBytes = n.connection.statistics.queueBytes
  | _ => False

theorem Quiet.timer (h : Quiet e l) : TimerLabel Γ e n l := by
  cases l <;> first | exact h | exact h.elim

/-- The activity of a connection since a call began: none, or something was sent. -/
def ActiveSince (e : Env) (n n' : Node) : Prop :=
  n'.connection.lastReceive = n.connection.lastReceive ∧
    (n'.connection.lastSend = n.connection.lastSend ∨ n'.connection.lastSend = e.now)

/-- A connection that is idle in the course of a call was idle when it began. -/
theorem ActiveSince.idle {cfg : TransportConfig} (h : ActiveSince e n n') (hid : isIdle cfg e.now n'.connection = true) :
    isIdle cfg e.now n.connection = true := by
  obtain ⟨hr, hs | hs⟩ := h
  · rwa [isIdle, hr, hs] at hid
  · -- after a send the last activity is now, and a timeout that is not zero has not run
    simp only [isIdle, elapsed, hr, hs, Bool.and_eq_true, decide_eq_true_eq] at hid
    obtain ⟨hne, hle, hd⟩ := hid
    have hn : (if n.connection.lastReceive < e.now then e.now else n.connection.lastReceive) = e.now := by
      split
      · rfl
      · rename_i hlt
        rw [if_neg hlt] at hle
        exact UInt64.le_antisymm hle (UInt64.not_lt.1 hlt)
    rw [hn, UInt64.sub_self] at hd
    exact absurd (UInt64.le_antisymm hd (UInt64.zero_le)) hne

theorem performs_retryHandshake : Performs Γ Greets 0 m (retryHandshake Γ e m).1 := by
  unfold retryHandshake
  have hh : Performs Γ Greets 0 m (sendHandshakeHello Γ e m).1 := performs_sendHandshake rfl _
  split
  · rename_i heq _
    rw [heq] at hh
    exact hh.trans (m := 0) (performs_sendHandshake rfl _)
  · exact hh

section Timers

variable {P : Label → Prop} (hP : ∀ l, Quiet e l → P l)

include hP

theorem stage_expirePreviousKey : Stage Γ P (Quiet e) 0 m (expirePreviousKey e m) := by
  unfold expirePreviousKey
  split
  · split
    · exact .goOn_same rfl
    · rename_i ch hch
      exact .of_performs hP (.single (.clearPrevious _ ch hch) trivial rfl)
  · exact .goOn_same rfl

theorem stage_advanceDraining : Stage Γ P (Quiet e) 1 m (advanceDraining Γ e m) := by
  unfold advanceDraining
  split
  · exact .of_return ((performs_finishDraining _).imp fun _ h => hP _ h.quiet)
  · exact .goOn_same rfl

theorem stage_advanceHandshake : Stage Γ P (Quiet e) 0 m (advanceHandshake Γ e m) := by
  unfold advanceHandshake
  dsimp only
  split
  · exact .goOn_same rfl
  split
  · exact .goOn_same rfl
  split
  · exact .goOn_same rfl
  split
  · exact .goOn_same rfl
  have hr := (performs_retryHandshake (Γ := Γ) (e := e) (m := m)).imp fun _ h => hP _ h.quiet
  split
  · exact .of_return hr
  · exact .of_return hr

theorem stage_repeatKeyUpdate : Stage Γ P (Quiet e) 1 m (repeatKeyUpdate Γ e m) := by
  unfold repeatKeyUpdate
  dsimp only
  split
  · rename_i hp
    have hs : Performs Γ (Quiet e) 1 m (sendKeyUpdateRequest Γ e m m.connection.keyUpdateEpoch).1 := by
      exact ((handles_sendKeyUpdateRequest _).performs ⟨hp.1, rfl⟩).imp fun _ => quiet
    unfold orReturn
    split
    · exact .of_performs hP hs
    · exact .of_performs hP hs
  · exact .goOn_same rfl

theorem stage_repeatPathChallenge : Stage Γ P (Quiet e) 1 m (repeatPathChallenge Γ e m) := by
  unfold repeatPathChallenge
  dsimp only
  split
  · have hs : Performs Γ (Quiet e) 1 m
        (sendPathPacket Γ e m .pathChallenge m.connection.pendingPath m.connection.pendingPathToken).1 :=
      (performs_sendPathPacket _).imp fun _ => quiet
    unfold orReturn
    split
    · exact .of_performs hP hs
    · exact .of_performs hP hs
  · exact .goOn_same rfl

theorem stage_advertiseCredit : Stage Γ P (Quiet e) 1 m (advertiseCredit Γ e m) := by
  unfold advertiseCredit
  split
  · have hs : Performs Γ (Quiet e) 1 m (sendFlowControl Γ e m m.connection.receiveFlowCredit).1 :=
      (performs_sendFlowControl _).imp fun _ => quiet
    unfold orReturn
    split
    · exact .of_performs hP hs
    · exact .of_performs hP hs
  · exact .goOn_same rfl

end Timers

theorem expirePreviousKey_active : ActiveSince e m (expirePreviousKey e m).1 := by
  unfold expirePreviousKey
  split
  · split <;> exact ⟨rfl, .inl rfl⟩
  · exact ⟨rfl, .inl rfl⟩

theorem repeatPathChallenge_active : ActiveSince e m (repeatPathChallenge Γ e m).1 := by
  unfold repeatPathChallenge
  dsimp only
  split
  · have hs := sendPacket_activity Γ e .path m.connection.secureEnabled m m.connection.pendingPath
      (encodePath .pathChallenge m.connection.id m.connection.nextPacket m.connection.sendEpoch
        m.connection.pendingPathToken Γ.cfg.maximumDatagramSize.toNat)
    unfold orReturn
    split
    · exact hs
    · exact hs
  · exact ⟨rfl, .inl rfl⟩

theorem advertiseCredit_active : ActiveSince e m (advertiseCredit Γ e m).1 := by
  unfold advertiseCredit
  split
  · have hs := sendPacket_activity Γ e .flowControl m.connection.secureEnabled m m.connection.remote
      (encodeFlowControl m.connection.id m.connection.nextPacket m.connection.sendEpoch
        (UInt64.ofNat m.connection.receiveFlowCredit) Γ.cfg.maximumDatagramSize.toNat)
    have hf : ActiveSince e m (sendFlowControl Γ e m m.connection.receiveFlowCredit).1 := by
      unfold sendFlowControl
      dsimp only
      split
      · rename_i heq
        rw [heq] at hs
        exact hs
      · exact hs
    unfold orReturn
    split
    · exact hf
    · exact hf
  · exact ⟨rfl, .inl rfl⟩

theorem ActiveSince.trans {n1 n2 n3 : Node} (h1 : ActiveSince e n1 n2) (h2 : ActiveSince e n2 n3) : ActiveSince e n1 n3 := by
  refine ⟨h2.1.trans h1.1, ?_⟩
  rcases h2.2 with h | h
  · exact h1.2.imp h.trans h.trans
  · exact .inr h

theorem advanceDraining_goOn (h : (advanceDraining Γ e m).2 = none) : (advanceDraining Γ e m).1 = m := by
  unfold advanceDraining at h ⊢
  split at h
  · cases h
  rename_i hn
  rw [if_neg hn]
  rfl

theorem advanceHandshake_goOn (h : (advanceHandshake Γ e m).2 = none) : (advanceHandshake Γ e m).1 = m := by
  by_cases hs : m.connection.state ≠ .handshaking
  · simp only [advanceHandshake, if_pos hs]
    rfl
  · simp only [advanceHandshake, if_neg hs, return_] at h
    repeat' split at h
    all_goals cases h

theorem repeatKeyUpdate_goOn (h : (repeatKeyUpdate Γ e m).2 = none) : (repeatKeyUpdate Γ e m).1 = m := by
  unfold repeatKeyUpdate at h ⊢
  dsimp only at h ⊢
  split at h
  · unfold orReturn at h
    split at h <;> cases h
  · rename_i hn
    rw [if_neg hn]
    rfl

/-- A connection that is still idle when it is looked at was idle when the call began, and is aborted. -/
theorem stage_abortIdle (ha : ActiveSince e n m) (hq : (core m).queueBytes = (core n).queueBytes) :
    Stage Γ (TimerLabel Γ e n) (Quiet e) 1 m (abortIdle Γ e m) := by
  unfold abortIdle
  split
  · rename_i hid
    refine .of_return ((performs_closeConnection CloseReason.timeout idleText true).imp fun l hl => ?_)
    cases l with
    | emit p => trivial
    | burn => exact hl
    | abort qb => exact ⟨ha.idle hid, hl.2.2.trans hq⟩
    | _ => exact hl.elim
  · exact .goOn_same rfl

theorem stage_advanceTimers : Stage Γ (TimerLabel Γ e n) (Quiet e) 5 n (advanceTimers Γ e n) := by
  have hP : ∀ l, Quiet e l → TimerLabel Γ e n l := fun _ => Quiet.timer
  unfold advanceTimers
  refine (stage_expirePreviousKey hP).next (m := 5) hP fun h1 => ?_
  have hq1 := (stage_expirePreviousKey (Γ := Γ) (m := n) hP).goesOn h1
  have ha1 : ActiveSince e n (expirePreviousKey e n).1 := expirePreviousKey_active
  generalize (expirePreviousKey e n).1 = n1 at hq1 ha1 ⊢
  refine (stage_advanceDraining hP).next (m := 4) hP fun h2 => ?_
  rw [advanceDraining_goOn h2]
  refine (stage_advanceHandshake hP).next (m := 4) hP fun h3 => ?_
  rw [advanceHandshake_goOn h3]
  refine (stage_repeatKeyUpdate hP).next (m := 3) hP fun h4 => ?_
  rw [repeatKeyUpdate_goOn h4]
  refine (stage_repeatPathChallenge hP).next (m := 2) hP fun h5 => ?_
  have hq5 := hq1.trans ((stage_repeatPathChallenge (Γ := Γ) (m := n1) hP).goesOn h5)
  have ha5 := ha1.trans (repeatPathChallenge_active (Γ := Γ) (m := n1))
  generalize (repeatPathChallenge Γ e n1).1 = n5 at hq5 ha5 ⊢
  refine (stage_advertiseCredit hP).next (m := 1) hP fun h6 => ?_
  have hq6 := hq5.trans ((stage_advertiseCredit (Γ := Γ) (m := n5) hP).goesOn h6)
  have ha6 := ha5.trans (advertiseCredit_active (Γ := Γ) (m := n5))
  obtain ⟨_, _, _, hc⟩ := Quiet.keeps hq6
  exact stage_abortIdle ha6 (by rw [hc])

/-- An idle connection is closed when it is aborted. -/
theorem abortIdle_cases : Performs Γ (Quiet e) 1 m (abortIdle Γ e m).1 ∨ (abortIdle Γ e m).1.connection.state = .closed := by
  unfold abortIdle
  split
  · exact .inr (closeConnection_abort_state _ _)
  · exact .inl (.refl _)

/-- The timers abort nothing, or leave the connection closed. -/
theorem advanceTimers_cases :
    Performs Γ (Quiet e) 5 n (advanceTimers Γ e n).1 ∨ (advanceTimers Γ e n).1.connection.state = .closed := by
  have next {k j : Nat} {n : Node} {o : Outcome} {tl : Node → Outcome} (h : Stage Γ (Quiet e) (Quiet e) k n o)
      (hr : ∀ m, Performs Γ (Quiet e) j m (tl m).1 ∨ (tl m).1.connection.state = .closed) :
      Performs Γ (Quiet e) (k + j) n (o.next tl).1 ∨ (o.next tl).1.connection.state = .closed := by
    obtain ⟨n', code⟩ := o
    cases code with
    | some code => exact .inl (h.performs.le (Nat.le_add_right k j))
    | none => exact (hr n').imp_left h.performs.trans
  have hP : ∀ l, Quiet e l → Quiet e l := fun _ => id
  unfold advanceTimers
  refine next (j := 5) (stage_expirePreviousKey hP) fun _ => ?_
  refine next (j := 4) (stage_advanceDraining hP) fun _ => ?_
  refine next (j := 4) (stage_advanceHandshake hP) fun _ => ?_
  refine next (j := 3) (stage_repeatKeyUpdate hP) fun _ => ?_
  refine next (j := 2) (stage_repeatPathChallenge hP) fun _ => ?_
  exact next (j := 1) (stage_advertiseCredit hP) fun _ => abortIdle_cases

/-! ## Reassembly -/

theorem core_foldl_dropRecord (rcs : List ReassemblyRecord) (n : Node) :
    core (rcs.foldl (fun n rec =>
      (n.emitEvent .deliveryFailed (.code .timeout) "reassembly expired").modify fun c => dropRecord c rec) n) =
      { core n with
        reassemblyBytes := (core n).reassemblyBytes - (rcs.map fun rec => rec.totalSize.toNat).sum
        reassemblyMessages := (core n).reassemblyMessages - rcs.length } := by
  induction rcs generalizing n with
  | nil => rfl
  | cons rec rcs ih =>
    rw [foldl_cons, ih, map_cons, sum_cons, ← Nat.sub_sub, length_cons, Nat.add_comm rcs.length, ← Nat.sub_sub]
    rfl

/-- Records whose time has come are given up. -/
def ExpiresRecords (e : Env) (n : Node) : Label → Prop
  | .expireRecords gone => ∀ r ∈ gone, r ∈ n.connection.reassembly ∧ r.expiresAt ≤ e.now
  | _ => False

theorem performs_expireReassembly : Performs Γ (ExpiresRecords e n) 0 n (expireReassembly e n) := by
  have hc := core_foldl_dropRecord (n.connection.reassembly.filter fun rec => decide (rec.expiresAt ≤ e.now)) n
  have heq := congrArg (fun c : Core => { c with
    reassembly := n.connection.reassembly.filter fun rec => !decide (rec.expiresAt ≤ e.now) }) hc
  have hs := Step.expireRecords (Γ := Γ) (core n) fun rec => decide (rec.expiresAt ≤ e.now)
  refine .single (Eq.mpr (congrArg (Step Γ (core n) (.expireRecords _)) heq) hs) (fun r hr => ?_) rfl
  exact ⟨mem_of_mem_filter hr, of_decide_eq_true (mem_filter.1 hr).2⟩

/-! ## Retransmission -/

/-- The node with the first frame of a lane taken out. -/
def Node.pop (n : Node) (lane : Lane) (tl : List OutgoingFrame) : Node :=
  n.modify fun c => { c with pendingLanes := Function.update c.pendingLanes lane tl }

theorem releaseReserved_eq (n : Node) (frame : OutgoingFrame) :
    (core n).reserved - credit frame = releaseReserved n.connection frame := by
  rw [releaseReserved, credit]
  split <;> rfl

variable {j : Nat}

theorem step_expireSent (hp : n.connection.sent[j]? = some p) : Step Γ (core n) (.expireSent p) (core (expireSent n j p)) := by
  have hs := Step.expireSent (Γ := Γ) (core n) j p hp
  rw [releaseReserved_eq] at hs
  exact hs

theorem step_expirePending {lane : Lane} {frame : OutgoingFrame} {tl : List OutgoingFrame}
    (hl : n.connection.pendingLanes lane = frame :: tl) :
    Step Γ (core n) (.drop frame) (core (expirePending (n.pop lane tl) frame)) := by
  have hs := Step.drop (Γ := Γ) (core n) lane frame tl hl
  rw [releaseReserved_eq] at hs
  exact hs

/-- What the retransmission stage may do, in terms of the sent list it begins with. -/
def Retransmits (Γ : Ctx) (e : Env) (sent : List SentPacket) : Label → Prop
  | .retransmit _ => True
  | .burn => ∃ place, e.ok (.send place) = false
  | .expireSent p => p ∈ sent ∧ isDue Γ.cfg e.now p = true ∧ isExpired e.now p.frame = true
  | _ => False

/-- The packet of a frame, for a node that may have been changed where the packet does not show it. -/
theorem encodeFrame_eq_packet {frame : OutgoingFrame} {maximumSize : Nat}
    (h : encodeFrame frame n.connection.id n.connection.nextPacket n.connection.sendEpoch n.connection.largestReceived
      n.connection.receivedRanges maximumSize = some bs) :
    bs = (core n).packet (.frame frame (core n).largest (core n).ranges) ∧ frame.payload.length ≤ 65535 := by
  obtain ⟨rfl, hs, -⟩ := encodeFrame_eq_some h
  refine ⟨?_, hs⟩
  rw [packet_eq n rfl]
  rfl

theorem performs_retransmit {sent : List SentPacket} (hp : n.connection.sent[j]? = some p) :
    Performs Γ (Retransmits Γ e sent) 1 n (retransmit Γ e n j p).1 := by
  unfold retransmit
  dsimp only
  generalize hm : n.modify (shrinkWindow Γ.cfg) = m
  have hc : core n = core m := by
    rw [← hm]
    rfl
  have hpm : (core m).sent[j]? = some p := by
    rw [← hc]
    exact hp
  rw [Performs, hc]
  split
  · exact .refl _
  · rename_i pkt he
    obtain ⟨rfl, hs⟩ := encodeFrame_eq_packet he
    rw [← protects_eq (p := .frame p.frame (core m).largest (core m).ranges) m rfl]
    split
    · exact .refl _
    · rename_i data m' hpr
      obtain ⟨ch, rfl, hch⟩ := protectFor_eq_some hpr
      split
      · rename_i hf
        exact .single (.burn _ _ data ch hch) ⟨_, hf⟩ rfl
      · exact .single (.retransmit _ m.connection.remote e.now j p data ch hpm hs hch) trivial rfl

theorem performs_retransmitScan (sent : List SentPacket) (fuel : Nat) :
    ∀ (j : Nat) (n : Node), (∀ p ∈ n.connection.sent, p ∈ sent) →
      Performs Γ (Retransmits Γ e sent) 1 n (retransmitScan Γ e fuel j n).1 := by
  induction fuel with
  | zero => exact fun _ _ _ => .refl _
  | succ fuel ih =>
    intro j n hs
    unfold retransmitScan
    dsimp only
    split
    · exact .refl _
    generalize hc : (if n.connection.sent.length ≤ n.connection.retransmissionCursor + j then
      n.connection.retransmissionCursor + j - n.connection.sent.length
      else n.connection.retransmissionCursor + j) = candidate
    split
    · exact .refl _
    rename_i p hp
    split
    · exact ih (j + 1) n hs
    rename_i hd
    split
    · -- an expired packet leaves the list, and the scan goes on over what is left of it
      rename_i he
      have hex : Performs Γ (Retransmits Γ e sent) 0 n (expireSent n candidate p) :=
        .single (step_expireSent hp) ⟨hs p (mem_of_getElem? hp), by simpa using hd, he⟩ rfl
      exact (hex.trans (ih j _ fun q hq => hs q (mem_of_mem_eraseIdx hq))).le (by omega)
    · exact performs_retransmit hp

/-! ## Acknowledgement -/

theorem performs_sendAck : Performs Γ (Sends e) 1 n (sendAck Γ e n).1 := by
  have hp : (Packet.ack (core n).largest (core n).ranges).isKeyUpdate = false := rfl
  unfold sendAck
  dsimp only
  split
  · rw [← protects_eq n hp, show encodeAck n.connection.id n.connection.nextPacket n.connection.sendEpoch
      n.connection.largestReceived n.connection.receivedRanges = (core n).packet (.ack (core n).largest (core n).ranges) from
      (packet_eq n hp).symm]
    split
    · exact .refl _
    · rename_i data n' hpr
      obtain ⟨ch, rfl, hch⟩ := protectFor_eq_some hpr
      split
      · rename_i hf
        exact .single (.burn _ _ data ch hch) ⟨_, hf⟩ rfl
      · exact .single (.emit _ (.ack _ _) n.connection.remote data ch ⟨rfl, rfl⟩ hch) trivial rfl
  · exact .refl _

/-! ## One frame -/

/-- The frame that the frame stage takes from its lane. -/
def takenFrame (e : Env) (n : Node) : Option OutgoingFrame :=
  (selectLane e.now n.connection).1.bind fun lane => (n.connection.pendingLanes lane).head?

/-- Whether the frame stage seals a frame and then holds it back. -/
def holdsBack (Γ : Ctx) (e : Env) (n : Node) : Bool :=
  let c := n.connection
  match takenFrame e n with
  | none => false
  | some frame =>
    match encodeFrame frame c.id c.nextPacket c.sendEpoch c.largestReceived c.receivedRanges
        Γ.cfg.maximumDatagramSize.toNat with
    | none => false
    | some packet =>
      match protectFor Γ e .frame c.secureEnabled n packet with
      | none => false
      | some (packet, _) => !isExpired e.now frame && heldBack e.now c packet.length

/-- What the frame stage may do. -/
def FrameLabel (Γ : Ctx) (e : Env) (n : Node) : Label → Prop
  | .transmit _ => True
  | .burn => (∃ place, e.ok (.send place) = false) ∨ e.ok .sentPacket = false ∨ holdsBack Γ e n = true
  | .drop frame => takenFrame e n = some frame ∧ isExpired e.now frame = true
  | .forget _ => e.ok .requeue = false
  | .select => True
  | _ => False

section Frame

variable {lane : Lane} {frame : OutgoingFrame} {tl : List OutgoingFrame} {P : Label → Prop}

/-- A frame that was taken out and goes back changes nothing; without memory for it, it is forgotten. -/
theorem performs_requeue (hl : n.connection.pendingLanes lane = frame :: tl) (hP : e.ok .requeue = false → P (.forget frame)) :
    Performs Γ P 0 n (requeue e (n.pop lane tl) lane frame) := by
  unfold requeue
  split
  · have hu : update (update n.connection.pendingLanes lane tl) lane
        (frame :: update n.connection.pendingLanes lane tl lane) = n.connection.pendingLanes := by
      rw [update_self, update_idem, ← hl, update_eq_self]
    have hc := congrArg (fun pending => { core n with pending := pending }) hu
    exact Eq.mpr (congrArg (Does (Step Γ) Label.weight P 0 (core n)) hc) (.refl _)
  · rename_i hf
    exact .single (.forget _ lane frame tl hl) (hP (by simpa using hf)) rfl

/-- A packet was sealed, and its frame goes back. -/
theorem performs_burn_requeue {data : Bytes} {ch : SecureChannel} {p : Packet}
    (hl : n.connection.pendingLanes lane = frame :: tl) (hch : (core n).Protects Γ p data ch) (hb : P .burn)
    (hP : e.ok .requeue = false → P (.forget frame)) :
    Performs Γ P 0 n (requeue e ((n.pop lane tl).modify fun c => { c with secureChannel := ch }) lane frame) := by
  have hf : Performs Γ P 0 n (n.modify fun c => { c with secureChannel := ch }) := .single (.burn _ p data ch hch) hb rfl
  exact hf.trans (m := 0) (performs_requeue (n := n.modify fun c => { c with secureChannel := ch }) hl hP)

/-- A frame that was sent counts in the window of its lane, and leaves the share of the lane alone. -/
theorem shares_countFrame (now : UInt64) (lane : Lane) (frame : OutgoingFrame) (size : Nat) (c : ConnectionRecord) :
    (fun l => ((countFrame now lane frame size c).lanes l).share) = fun l => (c.lanes l).share := by
  have hln : (countFrame now lane frame size c).lanes = update c.lanes lane
      { c.lanes lane with sentBytesWindow := (c.lanes lane).sentBytesWindow + size } := by
    unfold countFrame
    dsimp only
    split <;> rfl
  funext l
  rw [hln]
  by_cases hl : l = lane
  · rw [hl, update_self]
    rfl
  · rw [update_of_ne hl]

theorem performs_sendFrame (hl : n.connection.pendingLanes lane = frame :: tl)
    (he : isExpired e.now frame = true → P (.drop frame)) (hrq : e.ok .requeue = false → P (.forget frame))
    (ht : P (.transmit frame)) (hf : (∃ place, e.ok (.send place) = false) ∨ e.ok .sentPacket = false → P .burn)
    (hh : ∀ pkt data n', isExpired e.now frame = false →
      encodeFrame frame n.connection.id n.connection.nextPacket n.connection.sendEpoch n.connection.largestReceived
        n.connection.receivedRanges Γ.cfg.maximumDatagramSize.toNat = some pkt →
      protectFor Γ e .frame n.connection.secureEnabled (n.pop lane tl) pkt = some (data, n') →
      heldBack e.now n.connection data.length = true → P .burn) : Performs Γ P 1 n (sendFrame Γ e (n.pop lane tl) lane frame).1 := by
  have hp : (Packet.frame frame (core n).largest (core n).ranges).isKeyUpdate = false := rfl
  unfold sendFrame
  dsimp only
  split
  · rename_i hexp
    exact .single (step_expirePending hl) (he hexp) rfl
  rename_i hexp
  split
  · exact (performs_requeue hl hrq).le (by omega)
  rename_i pkt hc
  obtain ⟨hpkt, hsz⟩ := encodeFrame_eq_packet (n := n) hc
  split
  · exact (performs_requeue hl hrq).le (by omega)
  rename_i data n' hpr
  have hp' := hpr
  rw [hpkt, show (n.pop lane tl).connection.secureEnabled = (core n).protects (.frame frame (core n).largest (core n).ranges)
    from (protects_eq n hp).symm] at hp'
  obtain ⟨ch, rfl, hch⟩ := protectFor_eq_some hp'
  split
  · rename_i hh'
    exact (performs_burn_requeue hl hch (hh pkt data _ (by simpa using hexp) hc hpr hh') hrq).le (by omega)
  split
  · rename_i hm
    exact (performs_burn_requeue hl hch (hf (.inr hm.2)) hrq).le (by omega)
  split
  · rename_i hsn
    exact (performs_burn_requeue hl hch (hf (.inl ⟨_, hsn⟩)) hrq).le (by omega)
  · have hst := Step.transmit (Γ := Γ) (core n) n.connection.remote e.now lane frame tl data ch hl hsz hch
    refine .single (i := .transmit frame) ?_ ht rfl
    convert hst using 1
    have hs := shares_countFrame e.now lane frame data.length n.connection
    unfold countFrame at hs
    unfold transmit countFrame
    by_cases hr : isReliable frame.delivery = true
    · simp only [hr, if_true] at hs ⊢
      apply Core.ext <;> first | rfl | exact hs
    · simp only [hr] at hs ⊢
      apply Core.ext <;> first | rfl | exact hs

end Frame

/-- Sealing looks at the channel only. -/
theorem protectFor_congr {place : SendPlace} {protect : Bool} {data : Bytes}
    (h : protectFor Γ e place protect n bs = some (data, n')) (hch : n.connection.secureChannel = m.connection.secureChannel) :
    ∃ m', protectFor Γ e place protect m bs = some (data, m') := by
  unfold protectFor at h ⊢
  cases protect with
  | true =>
    rw [if_pos rfl, hch] at h
    obtain ⟨⟨pkt, ch⟩, hpp, heq⟩ := Option.map_eq_some_iff.1 h
    simp only [Prod.mk.injEq] at heq
    exact ⟨m.modify fun c => { c with secureChannel := ch }, by rw [if_pos rfl, hpp, ← heq.1]; rfl⟩
  | false =>
    simp only [Bool.false_eq_true, if_false, Option.some.injEq, Prod.mk.injEq] at h ⊢
    exact ⟨m, h.1, rfl⟩

theorem performs_sendPending : Performs Γ (FrameLabel Γ e n) 1 n (sendPending Γ e n).1 := by
  have hs : Performs Γ (FrameLabel Γ e n) 0 n (n.modify fun c => { c with lanes := (selectLane e.now n.connection).2 }) :=
    .single (.select _ _) trivial rfl
  unfold sendPending
  dsimp only
  cases hsl : (selectLane e.now n.connection).1 with
  | none => exact hs.le (by omega)
  | some lane =>
    dsimp only
    cases hl : n.connection.pendingLanes lane with
    | nil =>
      simp only [Node.modify_connection, hl]
      exact hs.le (by omega)
    | cons frame tl =>
      have ht : takenFrame e n = some frame := by simp [takenFrame, hsl, hl]
      simp only [Node.modify_connection, hl]
      refine hs.trans (m := 1) (performs_sendFrame (n := n.modify fun c => { c with lanes := (selectLane e.now n.connection).2 }) hl
        (fun he => ⟨ht, he⟩) id trivial (fun hf => hf.elim .inl fun h => .inr (.inl h)) ?_)
      intro pkt data n' he hc hp hh
      obtain ⟨m, hp'⟩ := protectFor_congr (m := n) hp rfl
      refine .inr (.inr ?_)
      change encodeFrame frame n.connection.id n.connection.nextPacket n.connection.sendEpoch n.connection.largestReceived
        n.connection.receivedRanges Γ.cfg.maximumDatagramSize.toNat = some pkt at hc
      change protectFor Γ e .frame n.connection.secureEnabled n pkt = some (data, m) at hp'
      simp only [holdsBack, ht, hc, hp', he, Bool.not_false, Bool.true_and]
      exact hh

/-! ## The call -/

/-- The frame that an advance takes from its lane. -/
def advanceFrame (Γ : Ctx) (e : Env) (n : Node) : Option OutgoingFrame :=
  match beforeFrame Γ e n with
  | (n, none) => takenFrame e n
  | _ => none

/-- Whether an advance seals a frame and then holds it back. -/
def pushesBack (Γ : Ctx) (e : Env) (n : Node) : Bool :=
  match beforeFrame Γ e n with
  | (n, none) => holdsBack Γ e n
  | _ => false

/-- What an advance may do, in terms of the state it begins with. -/
def AdvanceLabel (Γ : Ctx) (e : Env) (n : Node) : Label → Prop
  | .emit _ | .greet | .clearPrevious | .retransmit _ | .transmit _ => True
  | .burn => (∃ place, e.ok (.send place) = false) ∨ e.ok .sentPacket = false ∨ pushesBack Γ e n = true
  | .expireSent p => p ∈ n.connection.sent ∧ isDue Γ.cfg e.now p = true ∧ isExpired e.now p.frame = true
  | .drop frame => advanceFrame Γ e n = some frame ∧ isExpired e.now frame = true
  | .forget _ => e.ok .requeue = false
  | .select => True
  | .abort queueBytes => isIdle Γ.cfg e.now n.connection = true ∧ queueBytes = n.connection.statistics.queueBytes ∧
      (advanceConnection Γ e n).1.connection.state = .closed
  | .expireRecords gone => ∀ r ∈ gone, r ∈ n.connection.reassembly ∧ r.expiresAt ≤ e.now
  | _ => False

/-- What an advance may do before it comes to the lanes. -/
def BeforeLabel (Γ : Ctx) (e : Env) (n : Node) (l : Label) : Prop := AdvanceLabel Γ e n l ∧ l ≠ .select

theorem Quiet.before (h : Quiet e l) : BeforeLabel Γ e n l := by
  refine ⟨?_, by rintro rfl; exact h⟩
  cases l <;> first | exact h | exact .inl h | exact h.elim

theorem TimerLabel.before (hcl : (advanceConnection Γ e n).1.connection.state = .closed) (h : TimerLabel Γ e n l) :
    BeforeLabel Γ e n l := by
  refine ⟨?_, by rintro rfl; exact h⟩
  cases l <;> first | exact h | exact .inl h | exact ⟨h.1, h.2, hcl⟩ | exact h.elim

theorem Sends.before (h : Sends e l) : BeforeLabel Γ e n l := by
  refine ⟨?_, by rintro rfl; exact h⟩
  cases l <;> first | exact h | exact .inl h | exact h.elim

theorem ExpiresRecords.before (hr : m.connection.reassembly = n.connection.reassembly) (h : ExpiresRecords e m l) :
    BeforeLabel Γ e n l := by
  refine ⟨?_, by rintro rfl; exact h⟩
  cases l with
  | expireRecords gone => exact fun r hg => (h r hg).imp_left (hr ▸ ·)
  | _ => exact h.elim

theorem Retransmits.before (h : Retransmits Γ e n.connection.sent l) : BeforeLabel Γ e n l := by
  refine ⟨?_, by rintro rfl; exact h⟩
  cases l <;> first | exact h | exact .inl h | exact h.elim

theorem FrameLabel.advance (hm : beforeFrame Γ e n = (m, none)) (h : FrameLabel Γ e m l) : AdvanceLabel Γ e n l := by
  have hf : advanceFrame Γ e n = takenFrame e m := by simp only [advanceFrame, hm]
  have hp : pushesBack Γ e n = holdsBack Γ e m := by simp only [pushesBack, hm]
  cases l with
  | transmit frame => trivial
  | burn =>
    rw [AdvanceLabel, hp]
    exact h
  | drop frame =>
    rw [AdvanceLabel, hf]
    exact h
  | forget frame => exact h
  | select => trivial
  | _ => exact h.elim

theorem performs_beforeFrame : Performs Γ (BeforeLabel Γ e n) 7 n (beforeFrame Γ e n).1 := by
  have ht := stage_advanceTimers (Γ := Γ) (e := e) (n := n)
  have hcs := advanceTimers_cases (Γ := Γ) (e := e) (n := n)
  unfold beforeFrame
  generalize ho : advanceTimers Γ e n = o at ht hcs ⊢
  obtain ⟨n1, code⟩ := o
  cases code with
  | some code =>
    have ha : advanceConnection Γ e n = (n1, some code) := by simp only [advanceConnection, beforeFrame, ho, Outcome.next]
    rcases hcs with hq | hcl
    · exact hq.mono (fun _ => Quiet.before) (by omega)
    · exact ht.performs.mono (fun _ => TimerLabel.before (by rw [ha]; exact hcl)) (by omega)
  | none =>
    have hq := ht.goesOn rfl
    -- the timers leave the sent list as it was
    obtain ⟨_, _, _, hcr⟩ := Quiet.keeps hq
    have hs : n1.connection.sent = n.connection.sent := congrArg sent hcr
    have he := performs_expireReassembly (Γ := Γ) (e := e) (n := n1)
    have hs2 : (expireReassembly e n1).connection.sent = n.connection.sent := by
      rw [← hs]
      refine Does.invariant (I := fun c => c.sent = (core n1).sent) (fun c l c' hst hl hc => ?_) he rfl
      cases hst <;> first | exact hl.elim | exact hc
    have hr := performs_retransmitScan (Γ := Γ) (e := e) n.connection.sent
      (expireReassembly e n1).connection.sent.length 0 (expireReassembly e n1) (by rw [hs2]; exact fun _ => id)
    have hf := ((hq.imp fun _ => Quiet.before).trans
      (he.imp fun _ => ExpiresRecords.before (congrArg reassembly hcr))).trans
      (hr.imp fun _ => Retransmits.before)
    simp only [Outcome.next, retransmitOne]
    generalize retransmitScan Γ e _ 0 (expireReassembly e n1) = o at hf ⊢
    obtain ⟨n3, code⟩ := o
    cases code with
    | some code => exact hf.le (by omega)
    | none => exact hf.trans (performs_sendAck.imp fun _ => before)

/-- An advance is a sequence of steps, with eight packets at most. -/
theorem performs_advanceConnection : Performs Γ (AdvanceLabel Γ e n) 8 n (advanceConnection Γ e n).1 := by
  have hb : Performs Γ (AdvanceLabel Γ e n) 7 n (beforeFrame Γ e n).1 := performs_beforeFrame.imp fun _ => And.left
  unfold advanceConnection Outcome.next
  cases hc : (beforeFrame Γ e n).2 with
  | some code => exact hb.le (by omega)
  | none =>
    have hm : beforeFrame Γ e n = ((beforeFrame Γ e n).1, none) := Prod.ext rfl hc
    exact hb.trans (performs_sendPending.imp fun _ => FrameLabel.advance hm)

theorem performs_pollConnection : Performs Γ (AdvanceLabel Γ e n) 8 n (pollConnection Γ e n) := by
  unfold pollConnection
  split
  · exact performs_advanceConnection
  · exact .refl _

end Libft.Networking
