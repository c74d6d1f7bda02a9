import Libft.PThread.Lemmas.RwInvariants

/-!
# The tickets of the writers

A ticket is with one writer at most, from the one served on and below the next one. Tickets of writers that gave up are in the list of
cancelled ones and with nobody. The ticket of the active writer is the one served. So the ticket served is never out of range when a
writer leaves, and no error of the queue reaches a caller. As long as there is memory for the cancelled tickets, none is lost (`Full`).
-/

namespace Libft.PThread

open List Own Nat Threads Option

/-- The ticket of a writer, until it is served or cancelled. -/
def Own.ticket (o : Own) : Option ℕ :=
  match o.loc with
  | .wrCancel n => some n
  | _ => o.writerTicket

/-- The next turn of the thread cancels its ticket. -/
def Loc.cancels : Loc → Bool
  | .wrCancel _ => true
  | _ => false

/-- A range of tickets: which are with writers, which are cancelled. -/
structure Queue (first next : ℕ) (cc : List ℕ) (he : ℕ → Prop) : Prop where
  le_limit : next ≤ ticketLimit
  first_le : first ≤ next
  held_range : ∀ n, he n → first ≤ n ∧ n < next
  cancelled_range : ∀ n ∈ cc, first ≤ n ∧ n < next
  not_held : ∀ n ∈ cc, ¬he n
  nodup : cc.Nodup

namespace Queue

variable {first next n : ℕ} {cc : List ℕ} {he : ℕ → Prop}

section

variable (h : Queue first next cc he)

include h

/-- The first ticket goes by, if it is with nobody. -/
theorem pass (hlt : first < next) (hf : ¬he first) : Queue (first + 1) next (cc.erase first) he where
  le_limit := h.le_limit
  first_le := hlt
  held_range n hn := by
    have hne : n ≠ first := fun heq => hf (heq ▸ hn)
    have := h.held_range n hn
    omega
  cancelled_range n hn := by
    obtain ⟨hne, hm⟩ := h.nodup.mem_erase_iff.mp hn
    have := h.cancelled_range n hm
    omega
  not_held n hn := h.not_held n (mem_of_mem_erase hn)
  nodup := h.nodup.erase first

/-- An empty range. -/
theorem restart (heq : next = first) : Queue 0 0 cc he where
  le_limit := zero_le _
  first_le := le_rfl
  held_range n hn := by
    have := h.held_range n hn
    omega
  cancelled_range n hn := by
    have := h.cancelled_range n hn
    omega
  not_held := h.not_held
  nodup := h.nodup

/-- A writer takes the next ticket. -/
theorem issue (hr : next ≠ ticketLimit) : Queue first (next + 1) cc fun n => he n ∨ n = next where
  le_limit := lt_of_le_of_ne h.le_limit hr
  first_le := le_succ_of_le h.first_le
  held_range n hn := by
    rcases hn with hn | rfl
    · have := h.held_range n hn
      omega
    · exact ⟨h.first_le, lt_succ_self n⟩
  cancelled_range n hn := by
    have := h.cancelled_range n hn
    omega
  not_held n hn := by
    rintro (hh | rfl)
    · exact h.not_held n hn hh
    · exact lt_irrefl n (h.cancelled_range n hn).2
  nodup := h.nodup

/-- A ticket is with nobody any more. -/
theorem drop (n : ℕ) : Queue first next cc fun m => he m ∧ m ≠ n where
  le_limit := h.le_limit
  first_le := h.first_le
  held_range m hm := h.held_range m hm.1
  cancelled_range := h.cancelled_range
  not_held m hm hh := h.not_held m hm hh.1
  nodup := h.nodup

/-- The ticket of the first writer is served. -/
theorem serve (hf : he first) : Queue (first + 1) next cc fun m => he m ∧ m ≠ first := by
  have hp := (h.drop first).pass (h.held_range first hf).2 (fun hh => hh.2 rfl)
  rwa [erase_of_not_mem fun hm => h.not_held first hm hf] at hp

/-- The ticket of a writer is cancelled. -/
theorem cancel (hn : he n) : Queue first next (cc ++ [n]) fun m => he m ∧ m ≠ n where
  le_limit := h.le_limit
  first_le := h.first_le
  held_range m hm := h.held_range m hm.1
  cancelled_range m hm := by
    rcases mem_append.mp hm with hm | hm
    · exact h.cancelled_range m hm
    · rw [mem_singleton.mp hm]
      exact h.held_range n hn
  not_held m hm hheld := by
    rcases mem_append.mp hm with hm | hm
    · exact h.not_held m hm hheld.1
    · exact hheld.2 (mem_singleton.mp hm)
  nodup := by
    refine nodup_append.mpr ⟨h.nodup, nodup_singleton n, ?_⟩
    rintro m hm k hk rfl
    rw [mem_singleton.mp hk] at hm
    exact h.not_held n hm hn

end

end Queue

namespace RwLock

variable {T : Type} {t : T} {s s' : RwLock T} {o o' : Own} {ch : Choice} {he : ℕ → Prop}

/-- The first ticket that a writer may still wait with. -/
def first (s : RwLock T) : ℕ := s.servingWriterTicket + s.activeWriterHasTicket.toNat

/-- The tickets of the lock are a queue, from some ticket on. -/
def QueuedFrom (first : ℕ) (s : RwLock T) (he : ℕ → Prop) : Prop :=
  Queue first s.nextWriterTicket s.cancelledWriterTickets he

/-- Every ticket of the range is with a writer or cancelled. -/
def CoveredFrom (first : ℕ) (s : RwLock T) (he : ℕ → Prop) : Prop :=
  ∀ n, first ≤ n → n < s.nextWriterTicket → he n ∨ n ∈ s.cancelledWriterTickets

/-- No ticket is lost, and the one served is not cancelled. -/
def Served (s : RwLock T) (he : ℕ → Prop) : Prop :=
  CoveredFrom s.servingWriterTicket s he ∧ s.servingWriterTicket ∉ s.cancelledWriterTickets

/-- The tickets are a queue from the one served on. When `full`, none is lost. -/
def Settled (full : Prop) (s : RwLock T) (he : ℕ → Prop) : Prop := QueuedFrom s.servingWriterTicket s he ∧ (full → Served s he)

/-- With a turn for each cancelled ticket, the ticket served is not cancelled at the end. -/
theorem advanceFrom_spec {ts : ℕ} (h : QueuedFrom s.servingWriterTicket s he) (ht : s.cancelledWriterTickets.length ≤ ts) :
    (advanceFrom ts s).1 = true ∧ Settled (CoveredFrom s.servingWriterTicket s he) (advanceFrom ts s).2 he := by
  induction ts generalizing s with
  | zero =>
    have hl : s.cancelledWriterTickets = [] := eq_nil_of_length_eq_zero (le_zero.mp ht)
    refine ⟨rfl, h, fun hc => ⟨hc, ?_⟩⟩
    show s.servingWriterTicket ∉ s.cancelledWriterTickets
    rw [hl]
    exact not_mem_nil
  | succ ts ih =>
    rw [advanceFrom]
    split
    · rename_i hm
      have hlt := (h.cancelled_range _ hm).2
      dsimp only
      rw [if_neg (Nat.ne_of_lt (Nat.lt_of_lt_of_le hlt h.le_limit))]
      have hlen : (s.cancelledWriterTickets.erase s.servingWriterTicket).length ≤ ts := by
        rw [length_erase_of_mem hm]
        omega
      obtain ⟨hok, hq, hs⟩ := ih
        (s := { s with
          cancelledWriterTickets := s.cancelledWriterTickets.erase s.servingWriterTicket
          servingWriterTicket := s.servingWriterTicket + 1 }) (Queue.pass h hlt (h.not_held _ hm)) hlen
      refine ⟨hok, hq, fun hc => hs fun n hn hnx => ?_⟩
      rcases hc n (le_of_succ_le hn) hnx with hh | hcn
      · exact .inl hh
      · exact .inr ((mem_erase_of_ne (ne_of_gt hn)).mpr hcn)
    · exact ⟨rfl, h, fun hc => ⟨hc, ‹_›⟩⟩

/-- Tickets start again when none is out. -/
theorem resetWriterTickets_spec (full : Prop) (h : QueuedFrom s.servingWriterTicket s he)
    (heq : s.nextWriterTicket = s.servingWriterTicket) : Settled full s.resetWriterTickets he := by
  refine ⟨Queue.restart h heq, fun _ => ⟨fun n _ hn => absurd hn (not_lt_zero n), fun hm => ?_⟩⟩
  have hrg := h.cancelled_range 0 hm
  omega

/-- Closing the queue succeeds and serves a ticket that is held, if one is. -/
theorem finishWriterQueue_spec (h : QueuedFrom s.servingWriterTicket s he) (hno : s.activeWriterThread = none)
    (hc : s.waitingWriters = 0 ∨ ∃ n, he n) :
    s.finishWriterQueue.1 = true ∧ Settled (CoveredFrom s.servingWriterTicket s he) s.finishWriterQueue.2 he := by
  unfold finishWriterQueue
  split
  · rename_i hid
    exact ⟨rfl, resetWriterTickets_spec _ h hid.2.2⟩
  · rename_i hb
    -- the last ticket is not reached: a writer that waits has one below it
    have hne : s.servingWriterTicket ≠ ticketLimit := by
      intro hl
      have hle := h.le_limit
      rcases hc with h0 | ⟨n, hn⟩
      · exact hb ⟨h0, hno, le_antisymm (hl.symm ▸ hle) h.first_le⟩
      · have hrg := h.held_range n hn
        omega
    rw [if_neg (fun hl => hne hl.1), if_neg hne]
    dsimp only
    obtain ⟨hok, hs⟩ := advanceFrom_spec h le_rfl
    rw [advanceCancelled]
    generalize advanceFrom _ s = r at hok hs
    obtain ⟨ok, s'⟩ := r
    obtain rfl : ok = true := hok
    refine ⟨rfl, ?_⟩
    show Settled _ s'.resetIfIdle he
    unfold resetIfIdle
    split
    · rename_i hid
      exact resetWriterTickets_spec _ hs.1 hid.2.2.1
    · exact hs

/-- No ticket that a writer may wait with is lost, and the one served is not cancelled, unless the active writer has it. -/
def Full (s : RwLock T) (he : ℕ → Prop) : Prop :=
  CoveredFrom s.first s he ∧ (s.activeWriterHasTicket = false → s.servingWriterTicket ∉ s.cancelledWriterTickets)

/-- The next ticket is served without an error when the writer leaves. -/
theorem serveNext_spec (h : QueuedFrom s.first s he) (hno : s.activeWriterThread = none)
    (hcnt : s.waitingWriters = 0 ∨ ∃ n, he n) : s.serveNext.1 = true ∧ Settled (Full s he) s.serveNext.2 he := by
  unfold serveNext
  split
  · rename_i ht
    have hfst : s.first = s.servingWriterTicket + 1 := by
      rw [first, ht]
      rfl
    rw [hfst] at h
    have hlt : s.servingWriterTicket < ticketLimit := lt_of_lt_of_le h.first_le h.le_limit
    rw [if_neg (Nat.ne_of_lt hlt)]
    obtain ⟨hok, hq, hs⟩ := finishWriterQueue_spec (s := { s with servingWriterTicket := s.servingWriterTicket + 1 }) h hno hcnt
    refine ⟨hok, hq, fun hf => hs ?_⟩
    have hc := hf.1
    rw [hfst] at hc
    exact hc
  · rename_i ht
    have hfst : s.first = s.servingWriterTicket := by
      rw [first, eq_false_of_ne_true ht]
      rfl
    rw [hfst] at h
    refine ⟨rfl, h, fun hf => ⟨?_, hf.2 (eq_false_of_ne_true ht)⟩⟩
    have hc := hf.1
    rw [hfst] at hc
    exact hc

/-- A ticket is cancelled without an error. -/
theorem cancelTicket_spec {n : ℕ} (h : QueuedFrom s.first s he) (hn : he n) :
    (s.cancelTicket n).1 = true ∧
      QueuedFrom ((s.cancelTicket n).2.servingWriterTicket + s.activeWriterHasTicket.toNat) (s.cancelTicket n).2
        (fun m => he m ∧ m ≠ n) ∧
      (Full s he → CoveredFrom ((s.cancelTicket n).2.servingWriterTicket + s.activeWriterHasTicket.toNat) (s.cancelTicket n).2
          (fun m => he m ∧ m ≠ n) ∧
        (s.activeWriterHasTicket = false → (s.cancelTicket n).2.servingWriterTicket ∉ (s.cancelTicket n).2.cancelledWriterTickets)) := by
  have hc : Full s he →
      CoveredFrom s.first { s with cancelledWriterTickets := s.cancelledWriterTickets ++ [n] } fun m => he m ∧ m ≠ n := by
    intro hf m hm hnx
    by_cases heq : m = n
    · exact .inr (mem_append_right _ (mem_singleton.mpr heq))
    · rcases hf.1 m hm hnx with hh | hcn
      · exact .inl ⟨hh, heq⟩
      · exact .inr (mem_append_left _ hcn)
  unfold cancelTicket
  dsimp only
  split
  · rename_i hs
    -- the ticket served is with a writer that waits, so not with the active one
    have hno : s.activeWriterHasTicket.toNat = 0 := by
      have hrg := (h.held_range n hn).1
      unfold first at hrg
      omega
    rw [first, hno] at h hc
    rw [hno]
    obtain ⟨hok, hq, hsr⟩ :=
      advanceFrom_spec (s := { s with cancelledWriterTickets := s.cancelledWriterTickets ++ [n] }) (Queue.cancel h hn) le_rfl
    refine ⟨hok, hq, fun hf => ?_⟩
    obtain ⟨hcv, hnot⟩ := hsr (hc hf)
    exact ⟨hcv, fun _ => hnot⟩
  · rename_i hs
    refine ⟨rfl, Queue.cancel h hn, fun hf => ⟨hc hf, fun ht hmem => ?_⟩⟩
    rcases mem_append.mp hmem with hmem | hmem
    · exact hf.2 ht hmem
    · exact hs (mem_singleton.mp hmem).symm

variable [DecidableEq T]

/-- The thread does not lose a ticket: there is memory to cancel it. -/
def Keeps (o : Own) (ch : Choice) : Prop := o.loc.cancels = true → ch ≠ .go false

/-- What becomes of the tickets, when `held'` are with writers. -/
def Reticketed (s : RwLock T) (he : ℕ → Prop) (keeps : Prop) (s' : RwLock T) (held' : ℕ → Prop) : Prop :=
  QueuedFrom s'.first s' held' ∧ (keeps → Full s he → Full s' held')

/-- What a turn does to the tickets: the thread keeps what it has, takes the next ticket, or gives up its own. -/
theorem Move.tickets (h : Move t s o ch s' o') (hs : Coherent s) (ho : At s o) (hq : QueuedFrom s.first s he)
    (hh : ∀ n, o.ticket = some n → he n) (hcnt : s.waitingWriters = 0 ∨ ∃ n, he n) :
    (o'.ticket = o.ticket ∧ Reticketed s he (Keeps o ch) s' he) ∨
      (o.ticket = none ∧ o'.ticket = some s.nextWriterTicket ∧
        Reticketed s he (Keeps o ch) s' fun n => he n ∨ n = s.nextWriterTicket) ∨
      ∃ n, o.ticket = some n ∧ o'.ticket = none ∧ Reticketed s he (Keeps o ch) s' fun m => he m ∧ m ≠ n := by
  have hsm : Reticketed s he (Keeps o ch) s he := ⟨hq, fun _ hf => hf⟩
  have ht : s.activeWriterThread = none → s.activeWriterHasTicket = false := by
    intro hno
    by_contra htr
    exact hs.ticketed (eq_true_of_ne_false htr) hno
  have hfst : s.activeWriterThread = none → s.first = s.servingWriterTicket := by
    intro hno
    rw [first, ht hno]
    rfl
  -- when the writer leaves, the first ticket is the one served
  have hse : ∀ next sr cc ok, s.retired.serveNext = (ok, s.retired.withTickets next sr cc) →
      Reticketed s he (Keeps o ch) (s.settled next sr cc) he := by
    intro next sr cc ok heq
    have hsr := serveNext_spec (s := s.retired) hq rfl hcnt
    rw [heq] at hsr
    exact ⟨hsr.2.1, fun _ hf => ⟨(hsr.2.2 hf).1, fun _ => (hsr.2.2 hf).2⟩⟩
  cases h with
  | look h =>
    cases h with
    | wakeNot k => rcases k with (_ | _) | _ <;> exact .inl ⟨rfl, hsm⟩
    | wrNoMemory n => exact .inr (.inr ⟨n, rfl, rfl, Queue.drop hq n, fun hk => absurd rfl (hk rfl)⟩)
    | _ => exact .inl ⟨rfl, hsm⟩
  | lock _ h => cases h <;> exact .inl ⟨rfl, hsm⟩
  | unlock h =>
    cases h with
    | wake k => rcases k with (_ | _) | _ <;> exact .inl ⟨rfl, hsm⟩
    | _ => exact .inl ⟨rfl, hsm⟩
  | setOpen | rdRefresh | ruWriters => exact .inl ⟨by split <;> rfl, hsm⟩
  | notify n => exact .inl ⟨rfl, by cases n <;> exact hsm⟩
  | rdQueue l e ch hl => rcases hl with ⟨rfl, _⟩ | rfl <;> exact .inl ⟨rfl, hsm⟩
  | wrWrap b e _ hv _ hno =>
    rw [hfst hno] at hq
    have hr := resetWriterTickets_spec True hq (le_antisymm (hv ▸ hq.le_limit) hq.first_le)
    have hz : s.resetWriterTickets.first = s.resetWriterTickets.servingWriterTicket := by
      show 0 + s.activeWriterHasTicket.toNat = 0
      rw [ht hno]
      rfl
    refine .inl ⟨by split <;> rfl, ?_, fun _ _ => ⟨?_, fun _ => (hr.2 trivial).2⟩⟩
    · rw [hz]
      exact hr.1
    · rw [hz]
      exact (hr.2 trivial).1
  | wrTryTake =>
    refine .inl ⟨rfl, ?_, fun _ hf => ⟨?_, fun _ => hf.2 (ht ho.2.1)⟩⟩
    · rw [hfst ho.2.1] at hq
      exact hq
    · have hcv := hf.1
      rw [hfst ho.2.1] at hcv
      exact hcv
  | wrQueue =>
    refine .inr (.inl ⟨rfl, rfl, Queue.issue hq ho, fun _ hf => ⟨fun n hn hnx => ?_, hf.2⟩⟩)
    rcases Nat.lt_succ_iff_lt_or_eq.mp hnx with hlt | heq
    · rcases hf.1 n hn hlt with hd | hcn
      · exact .inl (.inl hd)
      · exact .inr hcn
    · exact .inl (.inr heq)
  | wrTake n =>
    obtain rfl : n = s.servingWriterTicket := ho.2.2.2
    refine .inr (.inr ⟨_, rfl, rfl, ?_, fun _ hf => ⟨fun m hm hnx => ?_, nofun⟩⟩)
    · rw [hfst ho.2.1] at hq
      exact Queue.serve hq (hh _ rfl)
    · have hlt : s.servingWriterTicket < m := hm
      rcases hf.1 m (by rw [hfst ho.2.1]; exact le_of_lt hlt) hnx with hd | hcn
      · exact .inl ⟨hd, ne_of_gt hlt⟩
      · exact .inr hcn
  | wrCancel n e _ next sr cc heq =>
    have hc := cancelTicket_spec hq (hh n rfl)
    rw [heq] at hc
    exact .inr (.inr ⟨n, rfl, rfl, hc.2.1, fun _ => hc.2.2⟩)
  | wrCancelled n e _ next sr cc heq =>
    have hc := cancelTicket_spec hq (hh n rfl)
    rw [heq] at hc
    exact absurd hc.1 Bool.false_ne_true
  | wuFailed _ _ next sr cc _ heq | wuPhase _ _ next sr cc _ heq
  | wuOpen _ _ next sr cc _ heq => exact .inl ⟨rfl, hse next sr cc _ heq⟩
  | wuWriters _ _ next sr cc _ heq => exact .inl ⟨by split <;> rfl, hse next sr cc _ heq⟩
  | _ => exact .inl ⟨rfl, hsm⟩

/-- The tickets are in order. -/
structure Ticketed [Fintype T] (c : System T) : Prop extends Orderly c where
  unique : Unique Own.ticket c
  queued : QueuedFrom c.shared.first c.shared (Has Own.ticket c)

variable [Fintype T] {c : System T}

omit [DecidableEq T] in
theorem ticketed_initial (st : Strategy) : Ticketed (initial T st) where
  toOrderly := orderly_initial st
  unique t _ n ht := absurd ht.symm (some_ne_none n)
  queued := by
    refine ⟨zero_le _, le_rfl, ?_, fun n hn => absurd hn not_mem_nil, fun n hn => absurd hn not_mem_nil, nodup_nil⟩
    rintro n ⟨t, ht⟩
    cases ht

omit [DecidableEq T] [Fintype T] in
theorem ticket_of_writerTicket {n : ℕ} (h : o.writerTicket = some n) : o.ticket = some n := by
  obtain ⟨l, e⟩ := o
  cases l with
  | wrCancel m => cases h
  | _ => exact h

omit [DecidableEq T] in
/-- A writer that is counted has a ticket. -/
theorem Ticketed.counted (h : Ticketed c) : c.shared.waitingWriters = 0 ∨ ∃ n, Has ticket c n := by
  by_cases h0 : c.shared.waitingWriters = 0
  · exact .inl h0
  · obtain ⟨u, hu⟩ := h.queuedWriters.ne_zero.mp h0
    obtain ⟨n, hn⟩ := isSome_iff_exists.mp hu
    exact .inr ⟨n, u, ticket_of_writerTicket hn⟩

/-- What a turn does to the tickets that are with writers. -/
theorem Ticketed.reticketed (h : Ticketed c) (i : T × Choice) :
    Unique ticket (step c i) ∧
      Reticketed c.shared (Has ticket c) (Keeps (c.own i.1) i.2) (step c i).shared
        (Has ticket (step c i)) := by
  rcases (h.move i).tickets h.coherent (h.knows i.1) h.queued (fun n hn => ⟨i.1, hn⟩) h.counted with
    ⟨hkp, hq⟩ | ⟨hb, ha, hq⟩ | ⟨n, hb, ha, hq⟩
  · have hh : Has ticket (step c i) = Has ticket c := funext fun k => propext (has_step_keep hkp)
    rw [hh]
    refine ⟨h.unique.step ?_, hq⟩
    intro k hk t ht heq
    rw [hkp] at hk
    exact ht (h.unique t i.1 k heq hk)
  · have hh : Has ticket (step c i) = fun k => Has ticket c k ∨ k = c.shared.nextWriterTicket :=
      funext fun k => propext (has_step_get hb ha)
    rw [hh]
    refine ⟨h.unique.step ?_, hq⟩
    intro k hk t _ heq
    rw [ha] at hk
    obtain rfl := some.inj hk
    exact lt_irrefl _ (h.queued.held_range _ ⟨t, heq⟩).2
  · have hh : Has ticket (step c i) = fun k => Has ticket c k ∧ k ≠ n :=
      funext fun k => propext (has_step_drop h.unique hb ha)
    rw [hh]
    refine ⟨h.unique.step ?_, hq⟩
    intro k hk
    rw [ha] at hk
    cases hk

/-- Every step keeps the tickets in order. -/
theorem Ticketed.step (h : Ticketed c) (i : T × Choice) : Ticketed (step c i) where
  toOrderly := h.toOrderly.step i
  unique := (h.reticketed i).1
  queued := (h.reticketed i).2.1

omit [DecidableEq T] in
/-- A writer takes the lock before those with later tickets. -/
theorem Ticketed.taker (h : Ticketed c) {u : T} {m : ℕ} (ht : (c.own t).loc.takes = true) (hu : u ≠ t)
    (hm : (c.own u).ticket = some m) : ∃ n, (c.own t).loc = .wrTake n ∧ n < m := by
  have hrg := h.queued.held_range m ⟨u, hm⟩
  have hf : c.shared.servingWriterTicket ≤ c.shared.first := le_add_right _ _
  have hk := h.knows t
  have hun := h.unique u t m hm
  generalize c.own t = o at ht hk hun
  obtain ⟨l, e⟩ := o
  cases l with
  | wrTake n =>
    have hn : n = c.shared.servingWriterTicket := hk.2.2.2
    have hne : n ≠ m := by
      rintro rfl
      exact hu (hun rfl)
    exact ⟨n, rfl, by omega⟩
  | wrTryTake =>
    have hn : c.shared.nextWriterTicket = c.shared.servingWriterTicket := hk.2.2.2
    omega
  | _ => cases ht

/-- The tickets are in order in every run. -/
theorem ticketed_run (st : Strategy) (ts : List (T × Choice)) : Ticketed (run st ts) :=
  foldlRecOn ts _ (ticketed_initial st) fun _ h i _ => h.step i

/-- In every interleaving the counters say how many threads read, wait to read and wait to write, and no two writers have one ticket. -/
theorem run_counts (strategy : Strategy) (turns : List (T × Choice)) :
    let c := run strategy turns
    Counts fastActiveReaders counted c ∧ Counts activeReaders active c ∧ Counts waitingReaders queuedReader c ∧
      Counts waitingWriters queuedWriter c ∧ Unique ticket c := by
  have h := ticketed_run strategy turns
  exact ⟨h.fast, h.readers, h.queuedReaders, h.queuedWriters, h.unique⟩

end RwLock

end Libft.PThread
