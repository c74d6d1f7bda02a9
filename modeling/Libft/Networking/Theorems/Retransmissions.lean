import Libft.Networking.Calls
import Mathlib.Data.List.Perm.Basic

/-!
# The scan for a packet to send again

The scan starts at a cursor that was saved when a packet was last sent again. Acknowledgements shorten the list and leave the cursor
where it is, so that the scan may read behind the list; and a packet that expires in the part before the cursor moves the packets
behind it under the scan, so that one of them is visited twice and another not at all. In every run in which the acknowledgements leave
as many packets as the cursor counts, it stays in the list, and a scan with no expired packet before it visits every packet at most once
(`scanned_subperm`).
-/

namespace Libft.Networking

open List Nat Node

/-- What the scan reads from the sent list, in its order: `none` for an index that is not below the length. -/
def scanned (Γ : Ctx) (e : Env) : Nat → Nat → Node → List (Option SentPacket)
  | 0, _, _ => []
  | fuel + 1, i, n =>
    let sent := n.connection.sent
    if sent.length ≤ i then []
    else
      let candidate := n.connection.retransmissionCursor + i
      let candidate := if sent.length ≤ candidate then candidate - sent.length else candidate
      sent[candidate]? ::
        match sent[candidate]? with
        | none => []
        | some p =>
          if isDue Γ.cfg e.now p = false then scanned Γ e fuel (i + 1) n
          else if isExpired e.now p.frame = true then scanned Γ e fuel i (expireSent n candidate p)
          else []

/-- A list in the order of a scan that starts at a cursor. -/
def fromCursor {α : Type} (cur : Nat) (l : List α) : List α := l.drop cur ++ l.take cur

section FromCursor

variable {α : Type} {l : List α} {cur i : Nat}

/-- The index of the scan is that of the list in its order. -/
theorem getElem?_fromCursor (hle : cur ≤ l.length) (hi : i < l.length) :
    (fromCursor cur l)[i]? = l[if l.length ≤ cur + i then cur + i - l.length else cur + i]? := by
  rw [fromCursor, getElem?_append, length_drop]
  split
  · rw [if_neg (by omega), getElem?_drop]
  · rw [if_pos (by omega), getElem?_take, if_pos (by omega)]
    congr 1
    omega

theorem fromCursor_append (l l' : List α) : fromCursor l.length (l ++ l') = l' ++ l := by
  simp [fromCursor]

/-- When an element behind the cursor leaves the list, the scan goes on with the one after it. -/
theorem drop_fromCursor_eraseIdx (h : cur + i < l.length) :
    (fromCursor (if l.length - 1 ≤ cur then 0 else cur) (l.eraseIdx (cur + i))).drop i =
      (fromCursor cur l).drop (i + 1) := by
  obtain ⟨before, ps, x, tl, rfl, rfl, rfl⟩ :
      ∃ before ps x tl, l = before ++ (ps ++ x :: tl) ∧ cur = before.length ∧ i = ps.length := by
    refine ⟨l.take cur, (l.drop cur).take i, l[cur + i], l.drop (cur + i + 1), ?_, ?_, ?_⟩
    · rw [← drop_eq_getElem_cons, ← drop_drop, take_append_drop, take_append_drop]
    · rw [length_take, min_eq_left (by omega)]
    · rw [length_take, length_drop, min_eq_left (by omega)]
  rw [fromCursor_append, eraseIdx_append_of_length_le (Nat.le_add_right _ _), Nat.add_sub_cancel_left,
    eraseIdx_append_of_length_le (Nat.le_refl _), Nat.sub_self, eraseIdx_cons_zero]
  split
  · -- the last element, at which the cursor was
    rename_i hl
    simp only [length_append, length_cons] at hl
    obtain ⟨hp, hr⟩ : ps.length = 0 ∧ tl.length = 0 := by omega
    rw [length_eq_zero_iff] at hp hr
    simp [hp, hr, fromCursor]
  · rw [fromCursor_append]
    simp [drop_append]

end FromCursor

/-- The cursor is in the list or at its end, and no packet before it has expired when it is due. -/
structure CursorSound (Γ : Ctx) (e : Env) (c : ConnectionRecord) : Prop where
  le : c.retransmissionCursor ≤ c.sent.length
  unexpired : ∀ p ∈ c.sent.take c.retransmissionCursor, isDue Γ.cfg e.now p = true → isExpired e.now p.frame = false

variable {Γ : Ctx} {e : Env} {n : Node} {i : Nat} {p : SentPacket} {fuel : Nat}

/-- An expired packet that the scan comes to is behind the cursor, and without it the cursor is still sound. -/
theorem CursorSound.expireSent (h : CursorSound Γ e n.connection)
    (hp : (fromCursor n.connection.retransmissionCursor n.connection.sent)[i]? = some p)
    (hd : isDue Γ.cfg e.now p = true) (he : isExpired e.now p.frame = true) :
    n.connection.retransmissionCursor + i < n.connection.sent.length ∧
      CursorSound Γ e (expireSent n (n.connection.retransmissionCursor + i) p).connection := by
  have hlt : n.connection.retransmissionCursor + i < n.connection.sent.length := by
    rw [fromCursor, getElem?_append, length_drop] at hp
    split at hp
    · omega
    · exact absurd he (by simp [h.unexpired p (mem_of_getElem? hp) hd])
  refine ⟨hlt, ?_, fun q hq => h.unexpired q ?_⟩
  · simp only [Networking.expireSent, modify_connection, emitEvent, length_eraseIdx_of_lt hlt]
    split
    · exact zero_le _
    · omega
  · simp only [Networking.expireSent, modify_connection, emitEvent] at hq
    split at hq
    · cases hq
    rw [eraseIdx_eq_take_drop_succ, take_append_of_le_length (by rw [length_take]; omega), take_take,
      min_eq_left (le_add_right _ _)] at hq
    exact hq

/-- With a sound cursor, the scan visits packets that are still to come in its order. -/
theorem CursorSound.scanned : ∀ (i : Nat) {n : Node}, CursorSound Γ e n.connection →
    ∃ vis, scanned Γ e fuel i n = vis.map some ∧
      vis <+ (fromCursor n.connection.retransmissionCursor n.connection.sent).drop i := by
  induction fuel with
  | zero => exact fun _ _ _ => ⟨[], rfl, nil_sublist _⟩
  | succ fuel ih =>
    intro i n h
    unfold Networking.scanned
    dsimp only
    split
    · exact ⟨[], rfl, nil_sublist _⟩
    rename_i hi
    have hl : i < (fromCursor n.connection.retransmissionCursor n.connection.sent).length := by
      simp only [fromCursor, length_append, length_drop, length_take]
      omega
    rw [← getElem?_fromCursor h.le (Nat.lt_of_not_le hi), getElem?_eq_getElem hl, drop_eq_getElem_cons hl]
    generalize hp : (fromCursor n.connection.retransmissionCursor n.connection.sent)[i] = p
    have hp := (getElem?_eq_getElem hl).trans (congrArg some hp)
    dsimp only
    split
    · obtain ⟨vis, hv, hb⟩ := ih (i + 1) h
      exact ⟨p :: vis, by rw [hv, map_cons], hb.cons_cons p⟩
    rename_i hd
    split
    · rename_i he
      obtain ⟨hlt, hs⟩ := h.expireSent hp (by simpa using hd) he
      rw [if_neg (not_le.2 hlt)]
      obtain ⟨vis, hv, hb⟩ := ih i hs
      refine ⟨p :: vis, by rw [hv, map_cons], .cons_cons p ?_⟩
      rw [← drop_fromCursor_eraseIdx hlt]
      exact hb
    · exact ⟨[p], rfl, .cons_cons p (nil_sublist _)⟩

theorem retransmit_ne_nullPointer : (retransmit Γ e n i p).2 ≠ some .nullPointer := by
  unfold retransmit
  dsimp only
  split
  · nofun
  split
  · nofun
  split <;> nofun

/-- The scan stops at the null pointer exactly when it reads behind the list. -/
theorem retransmitScan_eq_nullPointer_iff : ∀ {i : Nat} {n : Node},
    (retransmitScan Γ e fuel i n).2 = some .nullPointer ↔ none ∈ scanned Γ e fuel i n := by
  induction fuel with
  | zero => exact iff_of_false nofun nofun
  | succ fuel ih =>
    intro i n
    unfold retransmitScan scanned
    dsimp only
    split
    · exact iff_of_false (by simp [goOn]) not_mem_nil
    generalize n.connection.sent[(_ : Nat)]? = read
    cases read with
    | none => exact iff_of_true rfl mem_cons_self
    | some p =>
      simp only [mem_cons, reduceCtorEq, false_or]
      split
      · exact ih
      split
      · exact ih
      · exact iff_of_false retransmit_ne_nullPointer not_mem_nil

/-! ## The cursor in every run -/

/-- Every step but an acknowledgement and an abort keeps the cursor in the list. -/
theorem Step.scanCursor_le {c c' : Core} {l : Label} (hs : Step Γ c l c') (hab : ∀ qb, l ≠ .abort qb)
    (hack : ∀ largest rs, l ≠ .acknowledge largest rs) (hc : c.scanCursor ≤ c.sent.length) : c'.scanCursor ≤ c'.sent.length := by
  cases hs with
  | abort => exact absurd rfl (hab _)
  | acknowledge largest rs => exact absurd rfl (hack largest rs)
  | transmit destination now lane frame rest data ch =>
    simp only [Core.transmit, Core.emit]
    split
    · exact hc.trans (by simp)
    · exact hc
  | retransmit destination now index p data ch =>
    simp only [Core.retransmit, Core.emit, length_set]
    split <;> omega
  | expireSent index p hp =>
    have hlt : index < c.sent.length := (List.getElem?_eq_some_iff.1 hp).1
    simp only [length_eraseIdx_of_lt hlt]
    split <;> omega
  | _ => exact hc

/-- A step of the processing of a datagram leaves the cursor alone. -/
theorem Step.scanCursor_eq {c c' : Core} {l : Label} {src : Endpoint} {data : Bytes} (hs : Step Γ c l c')
    (hl : ProcessLabel Γ e n src data l) : c'.scanCursor = c.scanCursor := by
  cases hs <;> first | rfl | exact hl.elim

/-- A datagram that takes packets out of the sent list leaves at least as many as the cursor counts. Only a connection that is not closed
advances, which `poll` and `flush_connection` see to. -/
def CursorKept (Γ : Ctx) (n : Node) (i : Input) : Prop :=
  match i.call with
  | .process _ _ => (step Γ n i).connection.sent ≠ n.connection.sent →
      n.connection.retransmissionCursor ≤ (step Γ n i).connection.sent.length
  | .advance => n.connection.state ≠ .closed
  | _ => True

instance decidableCursorKept (Γ : Ctx) (n : Node) (i : Input) : Decidable (CursorKept Γ n i) := by
  unfold CursorKept
  split <;> infer_instance

/-- A connection is closed, or its cursor is in the list or at its end. -/
def CursorIn (n : Node) : Prop := n.connection.state = .closed ∨ n.connection.retransmissionCursor ≤ n.connection.sent.length

/-- A connection that is closed stays so, as long as it does not advance. -/
theorem step_state_closed {i : Input} (hn : n.connection.state = .closed) (hk : CursorKept Γ n i) :
    (step Γ n i).connection.state = .closed := by
  obtain ⟨call, e⟩ := i
  cases call with
  | send => simp [step, sendConnectionMessage, refuseMessage, hn]
  | advance => exact absurd hn hk
  | poll => simp [step, pollConnection, hn]
  | process src data =>
    simp only [step, processDatagram]
    split
    · exact hn
    split
    · exact hn
    split
    · unfold processHandshake
      split
      · exact hn
      split
      · exact hn
      split
      · simp [processRetry, hn]
      · unfold processHello
        split
        · exact hn
        · simp [hn]
      · simp [processFinished, hn]
    · simp [processPacket, hn]
  | close => simp [step, closeConnection, hn]
  | requestKeyUpdate => simp [step, requestConnectionKeyUpdate, hn]
  | updateKeyEpoch => simp [step, updateConnectionKeyEpoch, hn]
  | configureLane lane =>
    simp only [step, configureConnectionLane]
    split <;> exact hn
  | setQueueLimits limit =>
    simp only [step, setConnectionQueueLimits]
    split <;> exact hn

/-- An advance keeps the cursor in the list, or closes the connection. -/
theorem CursorIn.advance (hle : n.connection.retransmissionCursor ≤ n.connection.sent.length) :
    CursorIn (advanceConnection Γ e n).1 := by
  by_cases hcl : (advanceConnection Γ e n).1.connection.state = .closed
  · exact .inl hcl
  refine .inr (performs_advanceConnection.invariant (I := fun c : Core => c.scanCursor ≤ c.sent.length) ?_ hle)
  intro c l c' hs hl
  refine hs.scanCursor_le ?_ ?_
  · rintro qb rfl
    exact hcl hl.2.2
  · rintro largest rs rfl
    exact hl

/-- One call. -/
theorem CursorIn.step {i : Input} (h : CursorIn n) (hk : CursorKept Γ n i) : CursorIn (step Γ n i) := by
  rcases h with hn | hle
  · exact .inl (step_state_closed hn hk)
  obtain ⟨call, e⟩ := i
  -- a call without acknowledgements and without an abort
  have hcall (hno : ∀ l, CallLabel Γ n ⟨call, e⟩ l → (∀ qb, l ≠ .abort qb) ∧ ∀ largest rs, l ≠ .acknowledge largest rs) :
      CursorIn (Networking.step Γ n ⟨call, e⟩) := by
    refine .inr ((performs_step Γ n ⟨call, e⟩).invariant (I := fun c : Core => c.scanCursor ≤ c.sent.length) ?_ hle)
    exact fun c l c' hs hl => hs.scanCursor_le (hno l hl).1 (hno l hl).2
  cases call with
  | advance => exact CursorIn.advance hle
  | poll =>
    simp only [Networking.step, pollConnection]
    split
    · exact CursorIn.advance hle
    · exact .inr hle
  | process src data =>
    have hcur : (Networking.step Γ n ⟨.process src data, e⟩).connection.retransmissionCursor = n.connection.retransmissionCursor :=
      (performs_step Γ n ⟨.process src data, e⟩).invariant (I := fun c : Core => c.scanCursor = (core n).scanCursor)
        (fun c l c' hs hl hc => (hs.scanCursor_eq hl).trans hc) rfl
    refine .inr (hcur.trans_le ?_)
    by_cases hs : (Networking.step Γ n ⟨.process src data, e⟩).connection.sent = n.connection.sent
    · rwa [hs]
    · exact hk hs
  | close reason text abort =>
    cases abort with
    | true => exact .inl (closeConnection_abort_state reason text)
    | false =>
      refine hcall fun l hl => ⟨?_, ?_⟩
      · rintro qb rfl
        exact absurd hl.1 Bool.false_ne_true
      · rintro largest rs rfl
        exact hl
  | send =>
    refine hcall fun l hl => ⟨?_, ?_⟩
    · rintro qb rfl
      cases hl
    · rintro largest rs rfl
      cases hl
  | _ =>
    refine hcall fun l hl => ⟨?_, ?_⟩
    · rintro qb rfl
      exact hl
    · rintro largest rs rfl
      exact hl

/-- In every run in which the acknowledgements leave as many packets as the cursor counts: the cursor of a connection that is not closed
is in the list or at its end, and a scan with no expired packet before the cursor reads no index behind the list and visits every packet
at most once. -/
theorem scanned_subperm (Γ : Ctx) (n : Node) (hn : n.connection.retransmissionCursor = 0) (inputs : List Input)
    (h : Meets (step Γ) (CursorKept Γ) n inputs) (e : Env) :
    let m := run Γ n inputs
    m.connection.state ≠ .closed →
      m.connection.retransmissionCursor ≤ m.connection.sent.length ∧
      ((∀ p ∈ m.connection.sent.take m.connection.retransmissionCursor,
          isDue Γ.cfg e.now p = true → isExpired e.now p.frame = false) →
        (retransmitOne Γ e m).2 ≠ some .nullPointer ∧ ∃ visited : List SentPacket,
          scanned Γ e m.connection.sent.length 0 m = visited.map some ∧ visited.Subperm m.connection.sent) := by
  intro m hop
  have hin : CursorIn m := Meets.invariant (fun _ _ => CursorIn.step) (.inr (hn.trans_le (Nat.zero_le _))) h
  have hle : m.connection.retransmissionCursor ≤ m.connection.sent.length := hin.resolve_left hop
  refine ⟨hle, fun hunexpired => ?_⟩
  obtain ⟨visited, hv, hs⟩ := CursorSound.scanned 0 ⟨hle, hunexpired⟩
  have hp : fromCursor m.connection.retransmissionCursor m.connection.sent ~ m.connection.sent :=
    perm_append_comm.trans (.of_eq (take_append_drop _ _))
  refine ⟨fun hnl => ?_, visited, hv, hs.subperm.trans hp.subperm⟩
  have := retransmitScan_eq_nullPointer_iff.1 hnl
  simp [hv] at this

/-- Three packets are sent, and two of them again. -/
def sentAgain : List Input :=
  replicate 3 ⟨.send [1] {}, { now := 1000 }⟩ ++ replicate 3 ⟨.advance, { now := 1000 }⟩ ++ replicate 2 ⟨.advance, { now := 2000 }⟩

/-- The peer acknowledges the first of them, and the cursor is then at the end of the list. -/
theorem scanned_subperm_after_retransmissions :
    let m := run plainCtx openNode (sentAgain ++ [⟨.process ⟨[1]⟩ (encodeAck 7 1 0 5 [⟨5, 5⟩]), { now := 2000 }⟩])
    m.connection.retransmissionCursor = 2 ∧ m.connection.sent.length = 2 ∧
      (retransmitOne plainCtx { now := 3000 } m).2 ≠ some .nullPointer ∧
      ∃ v : List SentPacket, scanned plainCtx { now := 3000 } m.connection.sent.length 0 m = v.map some ∧
        v.Subperm m.connection.sent :=
  ⟨by decide +kernel, by decide +kernel,
    (scanned_subperm plainCtx openNode rfl _ (by decide +kernel) { now := 3000 } (by decide +kernel)).2 (by decide +kernel)⟩

/-- The peer acknowledges the second and the third. The cursor stays behind the one packet that is left, and the next scan reads behind
the list. -/
theorem scanned_behind_list :
    let n := run plainCtx openNode (sentAgain ++ [⟨.process ⟨[1]⟩ (encodeAck 7 1 0 6 [⟨6, 6⟩, ⟨4, 4⟩]), { now := 2000 }⟩])
    n.connection.retransmissionCursor = 2 ∧ n.connection.sent.length = 1 ∧
      scanned plainCtx { now := 3000 } n.connection.sent.length 0 n = [none] ∧
      (retransmitOne plainCtx { now := 3000 } n).2 = some .nullPointer := by
  decide +kernel

end Libft.Networking
