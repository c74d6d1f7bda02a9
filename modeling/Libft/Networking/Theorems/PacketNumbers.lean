import Libft.Networking.Calls

/-!
# Packet numbers and the channel that seals them

A channel seals a number only above the highest it sealed, and the connection moves its number on only when a datagram was sent. The
two stay in step as long as what is sealed is sent: a frame that is sealed and then held back, or that the system fails to send, leaves
the number of the next packet at the highest that was sealed.
-/

namespace Libft.Networking

open SecureChannel

/-- The number of the next packet is above every number that was sealed under the send key, and a number of packets can be sent before
it wraps. -/
structure Core.Ahead (headroom : Nat) (c : Core) : Prop where
  above : c.channel.hasSentPacket = true → c.channel.highestSentPacket < c.nextPacket
  room : c.nextPacket.toNat + headroom < 2 ^ 64

namespace Core.Ahead

variable {Γ : Ctx} {c : Core} {m : Nat}

theorem mono {k : Nat} (h : c.Ahead k) (hmk : m ≤ k) : c.Ahead m := ⟨h.above, by have := h.room; omega⟩

theorem toNat_nextPacket (h : c.Ahead (m + 1)) : (c.nextPacket + 1).toNat = c.nextPacket.toNat + 1 := by
  have := h.room
  rw [UInt64.toNat_add, UInt64.toNat_one, Nat.mod_eq_of_lt]
  omega

/-- The number of the next packet after a packet that left, with the channel that sealed it. -/
theorem protects (h : c.Ahead (m + 1)) {p : Packet} {data : Bytes} {ch : SecureChannel} (hch : c.Protects Γ p data ch) :
    (ch.hasSentPacket = true → ch.highestSentPacket < c.nextPacket + 1) ∧ (c.nextPacket + 1).toNat + m < 2 ^ 64 := by
  have hnx := h.toNat_nextPacket
  refine ⟨fun hs => ?_, by rw [hnx]; have := h.room; omega⟩
  rw [UInt64.lt_iff_toNat_lt, hnx]
  by_cases hp : c.protects p = true
  · obtain ⟨-, -, rfl⟩ := hch.sealed hp
    exact Nat.lt_succ_self _
  · rw [Core.Protects, if_neg hp] at hch
    rw [hch.2] at hs ⊢
    exact Nat.lt_succ_of_lt (UInt64.lt_iff_toNat_lt.1 (h.above hs))

/-- Every step keeps the number of the next packet ahead, at the cost of the packets it sends, but a packet that is sealed and does
not leave. -/
theorem step {c' : Core} {l : Label} (h : c.Ahead (m + l.weight)) (hst : Step Γ c l c') (hl : l ≠ .burn) : c'.Ahead m := by
  cases hst with
  | emit _ _ _ _ _ hch | transmit _ _ _ _ _ _ _ _ _ hch | retransmit _ _ _ _ _ _ _ _ hch
    | request _ _ _ _ _ _ _ hch => exact ⟨(h.protects hch).1, (h.protects hch).2⟩
  | answer d ep data ch ch' hs he hch hr =>
    -- the rotation of the receive key leaves what was sent as it is
    unfold updateReceiveKeyEpoch at hr
    split at hr
    · cases hr
    split at hr
    · cases hr
    cases hr
    exact ⟨(h.protects hch).1, (h.protects hch).2⟩
  | burn => exact absurd rfl hl
  | install sk rk ch hch =>
    unfold initializeDirectional at hch
    split at hch
    · cases hch
    cases hch
    exact ⟨nofun, h.room⟩
  | clearPrevious ch hch =>
    unfold clearPreviousReceiveKey at hch
    split at hch
    · cases hch
    split at hch
    · cases hch
      exact ⟨h.above, h.room⟩
    · cases hch
      exact ⟨h.above, h.room⟩
  | opened s n ep ad box p ch hch =>
    rcases openAtEpoch_eq_some hch with ⟨-, -, -, rfl⟩ | ⟨-, -, -, -, -, rfl⟩
    · exact ⟨h.above, h.room⟩
    · exact ⟨h.above, h.room⟩
  | confirm ch hs hp hch =>
    unfold updateSendKeyEpoch at hch
    split at hch
    · cases hch
    split at hch
    · cases hch
    cases hch
    exact ⟨nofun, h.room⟩
  | rotate ep ch hch =>
    unfold updateKeyEpoch at hch
    split at hch
    · cases hch
    split at hch
    · cases hch
    cases hch
    exact ⟨nofun, h.room⟩
  | _ => exact ⟨h.above, h.room⟩

end Core.Ahead

/-- What is sealed is sent: no datagram fails to leave, there is memory for the record of a sent packet, the frame stage holds no sealed
frame back, and the packet numbers are not about to wrap. -/
structure SealedIsSent (Γ : Ctx) (n : Node) (i : Input) : Prop where
  sends : ∀ place, i.env.ok (.send place) = true
  memory : i.env.ok .sentPacket = true
  goes : i.call.advances = true → pushesBack Γ i.env n = false
  room : n.connection.nextPacket.toNat + 8 < 2 ^ 64

/-- No acceptable call seals a packet that does not leave. -/
theorem SealedIsSent.not_burn {Γ : Ctx} {n : Node} {i : Input} (h : SealedIsSent Γ n i) : ¬CallLabel Γ n i .burn := by
  have hp : ¬∃ place, i.env.ok (.send place) = false := by
    rintro ⟨place, hf⟩
    exact absurd ((h.sends place).symm.trans hf) nofun
  have ha (hc : i.call.advances = true) : ¬AdvanceLabel Γ i.env n .burn := by
    rintro (hf | hf | hf)
    · exact hp hf
    · exact absurd (h.memory.symm.trans hf) nofun
    · exact absurd ((h.goes hc).symm.trans hf) nofun
  obtain ⟨call, e⟩ := i
  cases call with
  | advance | poll => exact ha rfl
  | process _ _ | close _ _ _ | requestKeyUpdate _ => exact hp
  | _ => nofun

/-- As long as what is sealed is sent, the number of the next packet is above every number sealed under the send key, and the channel
does not refuse it. -/
theorem nextPacket_above_highestSentPacket (Γ : Ctx) (n : Node)
    (hn : n.connection.secureChannel.hasSentPacket = false) (inputs : List Input)
    (h : Meets (step Γ) (SealedIsSent Γ) n inputs) :
    let c := (run Γ n inputs).connection
    (c.secureChannel.hasSentPacket = true → c.secureChannel.highestSentPacket < c.nextPacket) ∧
      (c.secureChannel.initialised = true → ∀ associatedData p,
        (c.secureChannel.seal_ Γ.crypto true c.nextPacket associatedData p).isSome = true) := by
  have ha : (core (run Γ n inputs)).channel.hasSentPacket = true →
      (core (run Γ n inputs)).channel.highestSentPacket < (core (run Γ n inputs)).nextPacket := by
    refine Meets.invariant (I := fun n => (core n).channel.hasSentPacket = true →
      (core n).channel.highestSentPacket < (core n).nextPacket) (fun n i ha hi => ?_) ?_ h
    · -- a call costs eight packets at most, for which the condition on its state sets room aside
      have hs : (core n).Ahead (0 + 8) := ⟨ha, hi.room⟩
      refine ((performs_step Γ n i).budget (I := fun m (c : Core) => c.Ahead m) (fun _ _ _ hmk h => h.mono hmk)
        (fun c l c' m hst hl hc => hc.step hst ?_) hs).above
      rintro rfl
      exact hi.not_burn hl
    · intro hsn
      exact absurd (hn.symm.trans hsn) nofun
  refine ⟨ha, fun ht ad p => ?_⟩
  have hf : ¬((run Γ n inputs).connection.secureChannel.hasSentPacket = true ∧
      (run Γ n inputs).connection.nextPacket ≤ (run Γ n inputs).connection.secureChannel.highestSentPacket) :=
    fun hr => UInt64.not_le.2 (ha hr.1) hr.2
  simp [seal_, ht, hf]

/-- A message is sent, and acknowledged by nobody. -/
theorem nextPacket_above_after_send :
    let inputs : List Input := [⟨.send [1, 2, 3] {}, { now := 1000 }⟩, ⟨.advance, { now := 1000 }⟩, ⟨.advance, { now := 2000 }⟩]
    let c := (run secureCtx secureNode inputs).connection
    (c.secureChannel.hasSentPacket = true → c.secureChannel.highestSentPacket < c.nextPacket) ∧
      (c.secureChannel.initialised = true → ∀ associatedData p,
        (c.secureChannel.seal_ secureCtx.crypto true c.nextPacket associatedData p).isSome = true) :=
  nextPacket_above_highestSentPacket secureCtx secureNode rfl _
    ⟨⟨fun _ => rfl, rfl, nofun, by decide +kernel⟩, ⟨fun _ => rfl, rfl, fun _ => by decide +kernel, by decide +kernel⟩,
      ⟨fun _ => rfl, rfl, fun _ => by decide +kernel, by decide +kernel⟩, trivial⟩

/-- The system fails to send a frame once. Its number is the highest sealed and also the number of the next packet, so that the channel
refuses it, and another advance, in which the system would send, sends nothing. -/
theorem nextPacket_refused_after_failed_send :
    let inputs : List Input := [⟨.send [1, 2, 3] {}, { now := 1000 }⟩,
      ⟨.advance, { now := 1000, ok := fun site => decide (site ≠ .send .frame) }⟩]
    let n := run secureCtx secureNode inputs
    n.connection.secureChannel.hasSentPacket = true ∧
      n.connection.secureChannel.highestSentPacket = n.connection.nextPacket ∧
      n.connection.secureChannel.seal_ secureCtx.crypto true n.connection.nextPacket [] [] = none ∧
      (advanceConnection secureCtx { now := 2000 } n).2 = some .internal ∧
      (advanceConnection secureCtx { now := 2000 } n).1.wire = n.wire := by
  decide +kernel

end Libft.Networking
