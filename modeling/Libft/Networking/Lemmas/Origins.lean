import Libft.Networking.Lemmas.Fragments

/-!
# Where frames, records and messages come from

Along every run of two connections, what a side sends are pieces of the messages it queued (`Sources`), and what its peer holds are
records of those messages and messages among them (`Sinks`). Both are kept step by step. What a step takes from a datagram it can take
from the peer's queued messages (`Told`), since only what the peer sent opens.
-/

namespace Libft.Networking

open List Function

/-! ## The sending side -/

/-- A packet that is a frame carries a piece of a queued message, and its payload can be read back. -/
def FramesKnown (cap : Nat) (qs : List QueuedMessage) (d : Dispatch) : Prop :=
  ∀ frame largest ranges, d.packet = .frame frame largest ranges →
    (∃ m ∈ qs, Carries cap m frame.delivery frame.piece) ∧ frame.payload.length ≤ 65535

/-- What a side has to send, has sent and may send again are pieces of the messages it queued, which have their own ids. -/
structure Sources (B : CryptoBackend) (cap : Nat) (qs : List QueuedMessage) (c : Core) : Prop where
  below : ∀ m ∈ qs, m.messageId < c.nextMessage
  unique : ∀ m ∈ qs, ∀ m' ∈ qs, m.messageId = m'.messageId → m = m'
  pending : ∀ lane, ∀ frame ∈ c.pending lane, ∃ m ∈ qs, Carries cap m frame.delivery frame.piece
  sent : ∀ p ∈ c.sent, isReliable p.frame.delivery = true ∧ ∃ m ∈ qs, Carries cap m p.frame.delivery p.frame.piece
  wired : c.Wired B (FramesKnown cap qs)

variable {lane : Lane} {frame : OutgoingFrame} {tl : List OutgoingFrame}

/-- The frames of a lane without its first are among those that were there. -/
theorem mem_of_mem_update {pending : Lane → List OutgoingFrame} {lane' : Lane} {frame' : OutgoingFrame}
    (hl : pending lane = frame :: tl) (h : frame' ∈ update pending lane tl lane') :
    frame' ∈ pending lane' := by
  by_cases heq : lane' = lane
  · subst heq
    rw [update_self] at h
    exact hl ▸ mem_cons_of_mem frame h
  · rwa [update_of_ne heq] at h

variable {data : Bytes}

/-- A reliable frame that is sent joins the sent list. -/
theorem mem_sent_transmit {c : Core} {d : Endpoint} {now : UInt64} {ch : SecureChannel} {p : SentPacket}
    (h : p ∈ (c.transmit d now lane frame tl data ch).sent) :
    p ∈ c.sent ∨ isReliable frame.delivery = true ∧ p = ⟨c.nextPacket, now, data.length, false, frame⟩ := by
  simp only [Core.transmit] at h
  split at h
  · rename_i hr
    exact (mem_append.1 h).imp_right fun hn => ⟨hr, mem_singleton.1 hn⟩
  · exact .inl h

namespace Sources

variable {Γ : Ctx} {cap : Nat} {qs : List QueuedMessage} {c c' : Core} {l : Label}

/-- What a step sends are pieces of queued messages. -/
theorem wired_step (h : Sources Γ.crypto cap qs c) (hst : Step Γ c l c') : c'.Wired Γ.crypto (FramesKnown cap qs) := by
  refine h.wired.step hst fun p hp frame lr r hf => ?_
  obtain rfl : p = .frame frame lr r := hf
  cases hst with
  | emit p d data ch hm hd =>
    cases hp
    exact hm.elim
  | transmit d now lane frame tl data ch hl hs hd =>
    cases hp
    exact ⟨h.pending lane frame (hl ▸ mem_cons_self), hs⟩
  | retransmit d now i p data ch hsn hs hd =>
    cases hp
    exact ⟨(h.sent p (mem_of_getElem? hsn)).2, hs⟩
  | _ => cases hp

/-- A step that queues nothing. -/
theorem step (h : Sources Γ.crypto cap qs c) (hs : Step Γ c l c') (hl : ∀ opt data, l ≠ .enqueue opt data) :
    Sources Γ.crypto cap qs c' := by
  have hw := h.wired_step hs
  cases hs with
  | transmit d now lane frame tl data ch hln hsz hd =>
    refine ⟨h.below, h.unique, fun lane' f' hf' => h.pending lane' f' (mem_of_mem_update hln hf'), fun p hp => ?_, hw⟩
    rcases mem_sent_transmit hp with ho | ⟨hr, rfl⟩
    · exact h.sent p ho
    · exact ⟨hr, h.pending lane frame (hln ▸ mem_cons_self)⟩
  | retransmit d now i p data ch hsn hsz hd =>
    refine ⟨h.below, h.unique, h.pending, fun p' hp' => ?_, hw⟩
    rcases mem_or_eq_of_mem_set hp' with ho | rfl
    · exact h.sent p' ho
    · exact h.sent p (mem_of_getElem? hsn)
  | expireSent i p hp => exact ⟨h.below, h.unique, h.pending, fun p' hp' => h.sent p' (mem_of_mem_eraseIdx hp'), hw⟩
  | drop _ _ _ hln | forget _ _ _ hln =>
    exact ⟨h.below, h.unique, fun lane' f' hf' => h.pending lane' f' (mem_of_mem_update hln hf'), h.sent, hw⟩
  | abort => exact ⟨h.below, h.unique, nofun, nofun, hw⟩
  | acknowledge lr r =>
    exact ⟨h.below, h.unique, h.pending, fun p hp => h.sent p (mem_of_mem_filter hp), hw⟩
  | enqueue now opt seq data => exact absurd rfl (hl opt data)
  | _ => exact { h with wired := hw }

/-- A message is queued: it has the next id, and its frames are pieces of it. -/
theorem enqueue {opt : SendOptions} {data : Bytes} (h : Sources Γ.crypto Γ.cfg.payloadCapacity qs c)
    (hs : Step Γ c (.enqueue opt data) c') (hid : c.nextMessage ≠ -1) :
    Sources Γ.crypto Γ.cfg.payloadCapacity (qs ++ [⟨opt, data, c.nextMessage, c.cursor opt.channel⟩]) c' := by
  have hmn {dl : Delivery} {x : Piece} (hx : ∃ m ∈ qs, Carries Γ.cfg.payloadCapacity m dl x) :
      ∃ m ∈ qs ++ [⟨opt, data, c.nextMessage, c.cursor opt.channel⟩], Carries Γ.cfg.payloadCapacity m dl x :=
    let ⟨m, hm, hc⟩ := hx
    ⟨m, mem_append_left _ hm, hc⟩
  have hnx : c.nextMessage < c.nextMessage + 1 := by
    grind
  cases hs with
  | enqueue now _ seq _ hln hsz hcap ht hq =>
    refine ⟨fun m hm => ?_, fun m hm m' hm' hi => ?_, fun lane frame hf => ?_, fun p hp => (h.sent p hp).imp_right hmn,
      fun ent he => ?_⟩
    · rcases mem_append.1 hm with ho | hnew
      · exact UInt64.lt_trans (h.below m ho) hnx
      · rw [mem_singleton.1 hnew]
        exact hnx
    · rcases mem_append.1 hm with ho | hnew <;> rcases mem_append.1 hm' with ho' | hnew'
      · exact h.unique m ho m' ho' hi
      · rw [mem_singleton.1 hnew'] at hi
        exact absurd (hi ▸ h.below m ho) (UInt64.lt_irrefl _)
      · rw [mem_singleton.1 hnew] at hi
        exact absurd (hi ▸ h.below m' ho') (UInt64.lt_irrefl _)
      · rw [mem_singleton.1 hnew, mem_singleton.1 hnew']
    · by_cases hl : lane = laneIndex opt.lane
      · subst hl
        rcases mem_append.1 (by simpa [Core.enqueue] using hf) with ho | hnew
        · exact hmn (h.pending _ frame ho)
        · obtain ⟨i, hidx, rfl⟩ := mem_map.1 hnew
          exact ⟨_, mem_append_right _ (mem_singleton_self _),
            carries_fragment (m := ⟨opt, data, c.nextMessage, c.cursor opt.channel⟩) hcap
              (Nat.lt_of_le_of_lt hsz (UInt32.toNat_lt _)) ht (mem_range.1 hidx) hq⟩
      · have ho : frame ∈ c.pending lane := by simpa [Core.enqueue, hl] using hf
        exact hmn (h.pending lane frame ho)
    · exact (h.wired ent he).imp_right fun ⟨d, hd, hk, hbs⟩ =>
        ⟨d, fun frame lr r hf => (hd frame lr r hf).imp_left hmn, hk, hbs⟩

/-- A frame that the peer reads carries a piece of a queued message. -/
theorem carries {e : Env} {n : Node} {ent : Endpoint × Bytes} {src : Endpoint} {dlv : Delivery}
    {f : FrameBody} (h : Sources Γ.crypto cap qs c) (hB : Γ.crypto.Ideal) (hs : c.secure = n.connection.secureEnabled)
    (he : ent ∈ c.wire) (hf : FrameOf Γ e n src ent.2 dlv f) : ∃ m ∈ qs, Carries cap m dlv f.piece := by
  obtain ⟨d, frame, lr, r, hd, ht, rfl, hp, -⟩ := h.wired.frame hB hs he (fun d frame lr r hd ht => (hd frame lr r ht).2) hf
  rw [hp]
  exact (hd frame lr r ht).1

end Sources

/-! ## The receiving side -/

/-- What a side holds of its peer's messages: records of queued messages, and queued messages that wait. -/
structure Sinks (cap : Nat) (qs : List QueuedMessage) (c : Core) : Prop where
  records : ∀ r ∈ c.reassembly, ∃ m ∈ qs, Reassembles cap m r
  waiting : ∀ M ∈ c.orderedPending, M.delivery = .reliableOrdered ∧ ∃ m ∈ qs, IsOf m M

/-- What a step takes from a datagram comes from the peer's queued messages. -/
def Told (cap : Nat) (qs : List QueuedMessage) : Label → Prop
  | .deliver single M | .buffer single M => single = true → ∃ m ∈ qs, IsOf m M
  | .openRecord _ r => ∃ m ∈ qs, Reassembles cap m r
  | .store f => ∃ delivery, ∃ m ∈ qs, Carries cap m delivery f.piece
  | _ => True

theorem ProcessLabel.told {Γ : Ctx} {e : Env} {n : Node} {src : Endpoint} {l : Label} {cap : Nat}
    {qs : List QueuedMessage} (h : ProcessLabel Γ e n src data l)
    (hfr : ∀ dlv f, FrameOf Γ e n src data dlv f → ∃ m ∈ qs, Carries cap m dlv f.piece) :
    Told cap qs l := by
  have hsn {single : Bool} {M : ReceivedMessage} (h : single = true → ∃ dlv f, FrameOf Γ e n src data dlv f ∧
      f.fragmentCount = 1 ∧ M = f.message dlv n.connection.id) : single = true → ∃ m ∈ qs, IsOf m M := by
    intro hs
    obtain ⟨dlv, f, hf, ht, rfl⟩ := h hs
    obtain ⟨m, hm, hc⟩ := hfr dlv f hf
    exact ⟨m, hm, hc.isOf ht _⟩
  cases l with
  | deliver _ _ | buffer _ _ => exact hsn h
  | openRecord held rec =>
    obtain ⟨-, dlv, f, hf, -, rfl⟩ := h
    obtain ⟨m, hm, hc⟩ := hfr dlv f hf
    exact ⟨m, hm, hc.reassembles _ _⟩
  | store f =>
    obtain ⟨dlv, hf⟩ := h
    exact ⟨dlv, hfr dlv f hf⟩
  | _ => trivial

/-- Where a message that is delivered comes from. -/
theorem Core.Origin.isOf {cap : Nat} {qs : List QueuedMessage} {c : Core} {single : Bool} {M : ReceivedMessage}
    (h : c.Origin single M) (hr : ∀ r ∈ c.reassembly, ∃ m ∈ qs, Reassembles cap m r)
    (hsn : single = true → ∃ m ∈ qs, IsOf m M) : ∃ m ∈ qs, IsOf m M := by
  rcases h with hs | ⟨rec, hrec, hc, rfl⟩
  · exact hsn hs
  · obtain ⟨m, hm, hof⟩ := hr rec hrec
    exact ⟨m, hm, hof.isOf hc _⟩

namespace Sinks

variable {Γ : Ctx} {cap : Nat} {qs : List QueuedMessage} {c c' : Core} {l : Label}

theorem mono (h : Sinks cap qs c) (m : QueuedMessage) : Sinks cap (qs ++ [m]) c where
  records r hr := let ⟨m, hm, h⟩ := h.records r hr; ⟨m, mem_append_left _ hm, h⟩
  waiting M hM := (h.waiting M hM).imp_right fun ⟨m, hm, h⟩ => ⟨m, mem_append_left _ hm, h⟩

theorem step (h : Sinks cap qs c) (hs : Step Γ c l c') (ht : Told cap qs l)
    (hu : ∀ m ∈ qs, ∀ m' ∈ qs, m.messageId = m'.messageId → m = m') : Sinks cap qs c' := by
  cases hs with
  | abort => exact ⟨nofun, nofun⟩
  | buffer single M hM ho hnx =>
    refine ⟨h.records, fun M' hM' => ?_⟩
    rcases mem_append.1 hM' with hd | hnew
    · exact h.waiting M' hd
    · rw [mem_singleton.1 hnew]
      exact ⟨hM, ho.isOf h.records ht⟩
  | release _ _ _ | lose _ _ _ => exact ⟨h.records, fun M' hM' => h.waiting M' (mem_of_mem_eraseP hM')⟩
  | openRecord rec hnew =>
    refine ⟨fun r hr => ?_, h.waiting⟩
    rcases mem_append.1 hr with hd | hl
    · exact h.records r hd
    · rw [mem_singleton.1 hl]
      exact ht
  | store i rec f hrec hid hsz =>
    refine ⟨fun r hr => ?_, h.waiting⟩
    rcases mem_or_eq_of_mem_set hr with hd | rfl
    · exact h.records r hd
    · -- the record and the piece are of the message with their id
      obtain ⟨m, hm, hof⟩ := h.records rec (mem_of_getElem? hrec)
      obtain ⟨d, m', hm', hc⟩ := ht
      obtain rfl := hu m hm m' hm' (hof.messageId.symm.trans (hid.trans hc.messageId))
      exact ⟨m, hm, hof.store hc⟩
  | complete i rec hrec => exact ⟨fun r hr => h.records r (mem_of_mem_eraseIdx hr), h.waiting⟩
  | expireRecords expired => exact ⟨fun r hr => h.records r (mem_of_mem_filter hr), h.waiting⟩
  | _ => exact ⟨h.records, h.waiting⟩

end Sinks

end Libft.Networking
