import Libft.PThread.Lemmas.RwTickets

/-!
# Readers and writers take turns

In writer-priority mode a writer that leaves opens a phase for the readers that wait. While the phase is open no writer takes the lock,
and a reader that comes later is not of the phase. But the phase is closed by the reader that counts the readers with the lock down to
none, whether or not the others of the phase have had their turn; when they have, the order is the one that is meant.
-/

namespace Libft.PThread

open Option Own List Meets

namespace RwLock

variable {T : Type} [DecidableEq T] {t : T} {s s' : RwLock T} {o o' : Own} {ch : Choice} {n : ℕ}

/-! ## The phase -/

theorem Move.strategy_eq (h : Move t s o ch s' o') : s'.strategy = s.strategy := by
  cases h with
  | notify n => cases n <;> rfl
  | _ => rfl

/-- An open phase stays open for those it was opened for, until a reader closes it. -/
theorem Move.phase_stays (h : Move t s o ch s' o') (hs : Coherent s) (ho : s.readerPhaseOpen = true) :
    (s'.readerPhaseOpen = true ∧ s.readerPhaseCutoff ≤ s'.readerPhaseCutoff) ∨
      (o.loc = .ruEnter ∧ s.activeReaders = 1 ∧ s.waitingWriters ≠ 0) ∨ s'.waitingReaders = 0 := by
  have hp := hs.phase ho
  cases h with
  | notify n => cases n <;> exact .inl ⟨ho, le_rfl⟩
  | rdClose b e _ _ h0 => exact .inr (.inr h0)
  | ruWriters e _ h1 hw => exact .inr (.inl ⟨rfl, h1, hw⟩)
  | ruPhase | wuPhase => exact .inl ⟨rfl, hp.2⟩
  | ruOpen e _ _ _ hno =>
    rcases hno with h0 | hr
    · exact .inr (.inr h0)
    · rw [hp.1] at hr
      exact absurd hr (by decide)
  | _ => exact .inl ⟨ho, le_rfl⟩

/-- A phase is opened when a writer leaves, or when no writer waits. -/
theorem Move.phase_opens (h : Move t s o ch s' o') (hno : s.activeWriterThread = none) (hw : s.waitingWriters ≠ 0)
    (ho : s'.readerPhaseOpen = true) : s.readerPhaseOpen = true ∧ s'.readerPhaseCutoff = s.readerPhaseCutoff := by
  cases h with
  | notify n => cases n <;> exact ⟨ho, rfl⟩
  | rdClose | ruWriters | ruOpen => cases ho
  | ruPhase e _ _ h0 => exact absurd h0 hw
  | wuPhase e _ _ _ _ ha => exact absurd (hno.symm.trans ha).symm (some_ne_none t)
  | _ => exact ⟨ho, rfl⟩

/-- A writer that leaves opens a phase for the readers that wait. -/
theorem releaseWrite_phase (ha : s.activeWriterThread = some t) (hok : s.retired.serveNext.1 = true)
    (hs : s.strategy = .writerPriority) (hr : s.waitingReaders ≠ 0) :
    (s.releaseWrite t o).1.readerPhaseOpen = true ∧ (s.releaseWrite t o).1.readerPhaseCutoff = s.nextReaderTicket := by
  obtain ⟨next, sr, cn, hsr⟩ := serveNext_eq s.retired
  have heq : { s with activeWriterThread := none, readerFastPathOpen := false }.serveNext =
      (true, s.retired.withTickets next sr cn) := Prod.ext hok hsr
  unfold releaseWrite
  rw [if_neg (not_not.mpr ha)]
  dsimp only
  rw [heq]
  split
  · rename_i hf
    cases hf
  · split
    · exact ⟨rfl, rfl⟩
    · rename_i hp
      exact absurd ⟨hs, hr⟩ hp

/-! ## Readers and writers in a turn -/

/-- A reader that waits goes on, has the lock, or gives up. -/
theorem Move.reader (h : Move t s o ch s' o') {k : ℕ} (ho : o.readerTicket = some k) :
    o'.readerTicket = some k ∨ o'.holdsRead = true ∨ o'.loc = .rdGiveUp true := by
  cases h with
  | look h =>
    cases h with
    | stay => exact .inl ho
    | rdError k => exact .inr (.inr rfl)
    | _ => cases ho
  | lock _ h =>
    cases h with
    | rdWoken => exact .inl ho
    | rdFailed => exact .inr (.inr rfl)
    | _ => cases ho
  | unlock h => cases h <;> cases ho
  | rdSpurious | rdSleep => exact .inl ho
  | rdTakeQueued => exact .inr (.inl rfl)
  | rdQueue l e ch hl => rcases hl with ⟨rfl, _⟩ | rfl <;> cases ho
  | _ => cases ho

/-- A reader that came when a writer waited stays outside, as long as one waits. -/
theorem Move.outsider (h : Move t s o ch s' o') (hs : Coherent s) (hp : s.strategy = .writerPriority) (hw : s.waitingWriters ≠ 0)
    (he : o.entry = none) (ht : ∀ k, o.readerTicket = some k → s.readerPhaseOpen = true → s.readerPhaseCutoff ≤ k) :
    o'.entry = none ∧ ∀ k, o'.readerTicket = some k → s.readerPhaseOpen = true → s.readerPhaseCutoff ≤ k := by
  have hno : ∀ k : ℕ, none = some k → s.readerPhaseOpen = true → s.readerPhaseCutoff ≤ k := nofun
  cases h with
  | look h =>
    cases h with
    | stay => exact ⟨he, ht⟩
    | wakeNot k => rcases k with (_ | _) | _ <;> exact ⟨he, hno⟩
    | _ => exact ⟨he, hno⟩
  | lock _ h =>
    cases h with
    | rdWoken => exact ⟨he, ht⟩
    | _ => exact ⟨he, hno⟩
  | unlock h =>
    cases h with
    | wake k => rcases k with (_ | _) | _ <;> exact ⟨he, hno⟩
    | _ => exact ⟨he, hno⟩
  | fastUnlock => exact absurd he (some_ne_none true)
  | fastEntry b e _ ho => exact absurd ((hs.closed hp hw).symm.trans ho) Bool.false_ne_true
  | setOpen | rdRefresh | wrWrap | wuWriters | ruWriters => split <;> exact ⟨by first | exact he | rfl, hno⟩
  | rdQueue =>
    refine ⟨he, fun k hk ho => ?_⟩
    obtain rfl := some.inj hk
    exact (hs.phase ho).2
  | rdTake b e _ hst => simp [stopsReaders, hp, hw] at hst
  | rdTakeQueued k e _ hwt =>
    cases ho : s.readerPhaseOpen with
    | true =>
      have hle := ht k rfl ho
      simp [readerWaits, hp, ho, hle] at hwt
    | false => simp [readerWaits, hp, ho, hw] at hwt
  | rdSpurious | rdSleep => exact ⟨he, ht⟩
  | _ => exact ⟨by first | exact he | rfl, hno⟩

/-- A writer that waits goes on, gives up, or takes the lock. -/
theorem Move.writer (h : Move t s o ch s' o') (ho : o.writerTicket = some n) (hgo : o.loc ≠ .wrGiveUp n) :
    (o'.writerTicket = some n ∧ o'.loc ≠ .wrGiveUp n) ∨ o'.loc = .wrGiveUp n ∨ s'.activeWriterThread = some t := by
  cases h with
  | look h =>
    cases h with
    | stay => exact .inl ⟨ho, hgo⟩
    | wrBlocked m | wrClear m => exact .inl ⟨ho, by rintro ⟨⟩⟩
    | wrError m =>
      obtain rfl := some.inj ho
      exact .inr (.inl rfl)
    | _ => cases ho
  | lock _ h =>
    cases h with
    | wrWoken m => exact .inl ⟨ho, by rintro ⟨⟩⟩
    | wrFailed m =>
      obtain rfl := some.inj ho
      exact .inr (.inl rfl)
    | _ => cases ho
  | unlock h => cases h <;> cases ho
  | wrSpurious m | wrSleep m => exact .inl ⟨ho, by rintro ⟨⟩⟩
  | wrTake => exact .inr (.inr rfl)
  | wrGiveUp m =>
    obtain rfl := some.inj ho
    exact absurd rfl hgo
  | rdQueue l e ch hl => rcases hl with ⟨rfl, _⟩ | rfl <;> cases ho
  | _ => cases ho

/-- A ticket that a writer has is one it had, or the next one. -/
theorem Move.writerTicket_new (h : Move t s o ch s' o') {m : ℕ} (hm : o'.writerTicket = some m) :
    o.writerTicket = some m ∨ m = s.nextWriterTicket := by
  cases h with
  | look h =>
    cases h with
    | wakeNot k => rcases k with (_ | _) | _ <;> exact .inl hm
    | wrNoMemory => cases hm
    | _ => exact .inl hm
  | lock _ h => cases h <;> exact .inl hm
  | unlock h =>
    cases h with
    | wake k => rcases k with (_ | _) | _ <;> exact .inl hm
    | _ => exact .inl hm
  | setOpen | rdRefresh | wrWrap | wuWriters | ruWriters => split at hm <;> exact .inl hm
  | rdQueue => cases hm
  | wrQueue => exact .inr (some.inj hm).symm
  | _ => first | exact .inl hm | cases hm

/-! ## A reader of the phase -/

/-- The reader that counts the readers with the lock down to none leaves no reader of the phase behind for a writer. -/
def DrainsPhase (c : System T) (i : T × Choice) : Prop :=
  (c.own i.1).loc = .ruEnter → c.shared.activeReaders = 1 → c.shared.waitingWriters ≠ 0 → c.shared.readerPhaseOpen = true →
    ∀ r k, (c.own r).readerTicket = some k → c.shared.readerPhaseCutoff ≤ k

/-- A reader waits in a phase opened for it. -/
structure InPhase [Fintype T] (r : T) (c : System T) : Prop extends Ticketed c where
  isOpen : c.shared.readerPhaseOpen = true
  waits : ∃ k, (c.own r).readerTicket = some k ∧ k < c.shared.readerPhaseCutoff

variable [Fintype T] {c : System T} {r w : T} {foremost : Prop}

/-- A reader of the phase stays in it until it holds the lock or gives up. -/
theorem InPhase.step (h : InPhase r c) (i : T × Choice) (hi : DrainsPhase c i) :
    InPhase r (step c i) ∨ ((step c i).own r).holdsRead = true ∨ ((step c i).own r).loc = .rdGiveUp true := by
  obtain ⟨k, hk, hlt⟩ := h.waits
  have hn : ((RwLock.step c i).own r).readerTicket = some k ∨ ((RwLock.step c i).own r).holdsRead = true ∨
      ((RwLock.step c i).own r).loc = .rdGiveUp true := by
    by_cases hr : r = i.1
    · subst hr
      rw [own_step]
      exact (h.move i).reader hk
    · rw [own_step_other hr]
      exact .inl hk
  rcases hn with hk' | hd
  · left
    rcases (h.move i).phase_stays h.coherent h.isOpen with ⟨ho, hle⟩ | ⟨hl, h1, hw⟩ | h0
    · exact ⟨h.toTicketed.step i, ho, k, hk', Nat.lt_of_lt_of_le hlt hle⟩
    · exact absurd (hi hl h1 hw h.isOpen r k hk) (Nat.not_le.mpr hlt)
    · exact absurd h0 ((h.toTicketed.step i).queuedReaders.ne_zero.mpr ⟨r, queuedReader_of_readerTicket hk'⟩)
  · exact .inr hd

omit [DecidableEq T] in
/-- No writer takes the lock in a phase. -/
theorem InPhase.not_takes (h : InPhase r c) : (c.own w).loc.takes = false := by
  have hk := h.knows w
  have ho := h.isOpen
  generalize c.own w = o at hk
  obtain ⟨l, e⟩ := o
  cases l with
  | wrTake n | wrTryTake => exact absurd (hk.2.2.1.symm.trans ho) Bool.false_ne_true
  | _ => rfl

/-- A writer that leaves opens the phase of each reader that waits. -/
theorem Ticketed.releases (h : Ticketed c) (ok : Bool) (hs : c.shared.strategy = .writerPriority) (hl : (c.own t).loc = .wuEnter)
    (ha : HoldsWrite c t) {k : ℕ} (hr : (c.own r).readerTicket = some k) : InPhase r (RwLock.step c (t, .go ok)) := by
  have hne : r ≠ t := by
    rintro rfl
    rw [readerTicket, hl] at hr
    exact some_ne_none k hr.symm
  have hsr := (serveNext_spec (s := c.shared.retired) h.queued rfl h.counted).1
  have hw := h.queuedReaders.ne_zero.mpr ⟨r, queuedReader_of_readerTicket hr⟩
  have hsh : (RwLock.step c (t, .go ok)).shared = (c.shared.releaseWrite t (c.own t)).1 := by
    show (c.shared.go t (c.own t) ok).1 = _
    rw [go, hl]
  obtain ⟨ho, hc⟩ := releaseWrite_phase (o := c.own t) ha hsr hs hw
  refine ⟨h.step _, by rw [hsh]; exact ho, k, ?_, ?_⟩
  · rw [own_step_other hne]
    exact hr
  · rw [hsh, hc]
    have hk := h.knows r
    generalize c.own r = o at hk hr
    obtain ⟨l, e⟩ := o
    cases l with
    | rdWait ticket | rdRetest ticket =>
      obtain rfl : ticket = some k := hr
      exact hk
    | _ => cases hr

/-! ## A reader that comes later -/

/-- A reader that came when a writer waited, as long as nobody has had the lock since. `foremost` is that the writer is the first in the
queue. -/
structure Outside (r w : T) (n : ℕ) (foremost : Prop) (c : System T) : Prop extends Ticketed c where
  strategy : c.shared.strategy = .writerPriority
  free : c.shared.activeWriterThread = none
  entry : (c.own r).entry = none
  later : ∀ k, (c.own r).readerTicket = some k → c.shared.readerPhaseOpen = true → c.shared.readerPhaseCutoff ≤ k
  waits : (c.own w).writerTicket = some n
  goesOn : (c.own w).loc ≠ .wrGiveUp n
  first : foremost → ∀ u m, (c.own u).writerTicket = some m → n ≤ m

/-- A reader behind the phase stays out until a writer holds the lock or gives up. -/
theorem Outside.step (h : Outside r w n foremost c) (i : T × Choice) :
    Outside r w n foremost (step c i) ∨ (∃ u, HoldsWrite (step c i) u ∧ (foremost → u = w)) ∨
      ((step c i).own w).loc = .wrGiveUp n := by
  have hmv := h.move i
  have hwt := h.queuedWriters.ne_zero.mpr ⟨w, by rw [queuedWriter, h.waits]; rfl⟩
  by_cases hfr : (RwLock.step c i).shared.activeWriterThread = none
  · have hw : (((RwLock.step c i).own w).writerTicket = some n ∧ ((RwLock.step c i).own w).loc ≠ .wrGiveUp n) ∨
        ((RwLock.step c i).own w).loc = .wrGiveUp n := by
      by_cases hi : w = i.1
      · subst hi
        rw [own_step]
        rcases hmv.writer h.waits h.goesOn with hkp | hg | htk
        · exact .inl hkp
        · exact .inr hg
        · exact absurd (hfr.symm.trans htk).symm (some_ne_none i.1)
      · rw [own_step_other hi]
        exact .inl ⟨h.waits, h.goesOn⟩
    rcases hw with ⟨hwa, hgs⟩ | hg
    · left
      have hr : ((RwLock.step c i).own r).entry = none ∧
          ∀ k, ((RwLock.step c i).own r).readerTicket = some k → c.shared.readerPhaseOpen = true → c.shared.readerPhaseCutoff ≤ k := by
        by_cases hi : r = i.1
        · subst hi
          rw [own_step]
          exact hmv.outsider h.coherent h.strategy hwt h.entry h.later
        · rw [own_step_other hi]
          exact ⟨h.entry, h.later⟩
      refine ⟨h.toTicketed.step i, hmv.strategy_eq.trans h.strategy, hfr, hr.1, ?_, hwa, hgs, ?_⟩
      · intro k hk ho
        obtain ⟨hb, hc⟩ := hmv.phase_opens h.free hwt ho
        rw [hc]
        exact hr.2 k hk hb
      · intro hf
        refine Threads.forall_own_step (P := fun _ _ o => ∀ m, writerTicket o = some m → n ≤ m) ?_ fun u _ => h.first hf u
        intro m hm
        rcases hmv.writerTicket_new hm with hd | rfl
        · exact h.first hf i.1 m hd
        · exact Nat.le_of_lt (h.queued.held_range n ⟨w, ticket_of_writerTicket h.waits⟩).2
    · exact .inr (.inr hg)
  · obtain ⟨hs, ht, _⟩ := hmv.becomes h.free hfr
    refine .inr (.inl ⟨i.1, hs, fun hf => ?_⟩)
    -- the writer that took the lock had the smallest ticket
    by_contra hne
    obtain ⟨n', hl, hlt⟩ := h.taker ht (Ne.symm hne) (ticket_of_writerTicket h.waits)
    have hle := h.first hf i.1 n' (by rw [writerTicket, hl])
    omega

omit [DecidableEq T] in
/-- A reader behind the phase does not hold the lock. -/
theorem Outside.not_holdsRead (h : Outside r w n foremost c) : (c.own r).holdsRead = false := by
  have he := h.entry
  generalize c.own r = o at he
  obtain ⟨l, e⟩ := o
  obtain rfl : e = none := he
  cases l <;> rfl

/-! ## The order -/

theorem strategy_run (st : Strategy) (ts : List (T × Choice)) : (run st ts).shared.strategy = st := by
  have hi : Ticketed (run st ts) ∧ (run st ts).shared.strategy = st :=
    foldlRecOn (motive := fun c => Ticketed c ∧ c.shared.strategy = st) ts _ ⟨ticketed_initial st, rfl⟩
      fun c h i _ => ⟨h.1.step i, (h.1.move i).strategy_eq.trans h.2⟩
  exact hi.2

omit [Fintype T] in
theorem run_append (st : Strategy) (before after : List (T × Choice)) :
    run st (before ++ after) = after.foldl step (run st before) := foldl_append

omit [Fintype T] in
theorem run_cons (st : Strategy) (before : List (T × Choice)) (i : T × Choice) (after : List (T × Choice)) :
    run st (before ++ i :: after) = after.foldl step (step (run st before) i) := foldl_append

/-- A turn in which the writer gives the lock back. -/
def ReleasesWrite (c : System T) (i : T × Choice) : Prop :=
  (c.own i.1).loc = .wuEnter ∧ HoldsWrite c i.1 ∧ ∃ ok, i.2 = .go ok

/-- In a run in which no reader closes a phase on others of the phase, with a writer in the queue: a reader that waits when a writer gives
the lock back has had it, or has given up, when a writer takes it next; a reader that comes when no writer has the lock, but one waits,
has it after a writer has had it, and after this one if it is the first in the queue, or has given up; and the writer that takes the lock
has a smaller ticket than those that wait. -/
theorem run_takes_turns {turns : List (T × Choice)} (h : Meets step DrainsPhase (initial T .writerPriority) turns) :
    (∀ before release after, turns = before ++ release :: after → ReleasesWrite (run .writerPriority before) release →
      ∀ r k w, ((run .writerPriority before).own r).readerTicket = some k → ((run .writerPriority turns).own w).loc.takes = true →
        ∃ mid rest, after = mid ++ rest ∧
          (((run .writerPriority (before ++ release :: mid)).own r).holdsRead = true ∨
            ((run .writerPriority (before ++ release :: mid)).own r).loc = .rdGiveUp true)) ∧
    (∀ before after, turns = before ++ after → (run .writerPriority before).shared.activeWriterThread = none →
      ∀ r w n, (run .writerPriority before).own r = {} → ((run .writerPriority before).own w).writerTicket = some n →
        ((run .writerPriority turns).own r).holdsRead = true →
        ∃ mid rest, after = mid ++ rest ∧
          ((∃ u, HoldsWrite (run .writerPriority (before ++ mid)) u ∧
              ((∀ v m, ((run .writerPriority before).own v).writerTicket = some m → n ≤ m) → u = w)) ∨
            ((run .writerPriority (before ++ mid)).own w).loc = .wrGiveUp n)) ∧
    (∀ w u m, ((run .writerPriority turns).own w).loc.takes = true → u ≠ w → ((run .writerPriority turns).own u).writerTicket = some m →
      ∃ n, ((run .writerPriority turns).own w).loc = .wrTake n ∧ n < m) := by
  refine ⟨?_, ?_, ?_⟩
  · rintro before ⟨t, ch⟩ after rfl ⟨hl, hh, ok, rfl⟩ r k w hr hw
    have hp := (ticketed_run .writerPriority before).releases ok (strategy_run _ before) hl hh hr
    rcases keeps_until (Q := fun c => (c.own r).holdsRead = true ∨ (c.own r).loc = .rdGiveUp true)
      (fun _ i hc hi => hc.step i hi) hp (right h).2 with he | ⟨mid, rest, rfl, hd⟩
    · rw [run_cons] at hw
      rw [he.not_takes] at hw
      cases hw
    · refine ⟨mid, rest, rfl, ?_⟩
      rw [run_cons]
      exact hd
  · rintro before after rfl hfr r w n hr hw hh
    by_cases hg : ((run .writerPriority before).own w).loc = .wrGiveUp n
    · refine ⟨[], after, rfl, .inr ?_⟩
      rw [append_nil]
      exact hg
    · have ho : Outside r w n (∀ v m, ((run .writerPriority before).own v).writerTicket = some m → n ≤ m)
          (run .writerPriority before) := by
        refine ⟨ticketed_run _ before, strategy_run _ before, hfr, by rw [hr], ?_, hw, hg, fun hf => hf⟩
        intro k hk
        rw [hr] at hk
        cases hk
      have ha : Meets step (fun _ _ => True) (run .writerPriority before) after := of_forall (fun _ _ => trivial) _ after
      rcases keeps_until
        (Q := fun c => (∃ u, HoldsWrite c u ∧ ((∀ v m, ((run .writerPriority before).own v).writerTicket = some m → n ≤ m) → u = w)) ∨
          (c.own w).loc = .wrGiveUp n) (fun _ i hc _ => hc.step i) ho ha with he | ⟨mid, rest, rfl, hd⟩
      · rw [run_append, he.not_holdsRead] at hh
        cases hh
      · refine ⟨mid, rest, rfl, ?_⟩
        rw [run_append]
        exact hd
  · intro w u m hw hu hm
    exact (ticketed_run .writerPriority turns).taker hw hu (ticket_of_writerTicket hm)

instance DrainsPhase.decidable (c : System T) (i : T × Choice) : Decidable (DrainsPhase c i) :=
  decidable_of_iff ((c.own i.1).loc = .ruEnter → c.shared.activeReaders = 1 → c.shared.waitingWriters ≠ 0 →
    c.shared.readerPhaseOpen = true → ∀ r, ∀ k ∈ (c.own r).readerTicket, c.shared.readerPhaseCutoff ≤ k) Iff.rfl

instance ReleasesWrite.decidable (c : System T) (i : T × Choice) : Decidable (ReleasesWrite c i) :=
  inferInstanceAs (Decidable (_ ∧ _ ∧ ∃ _, _))

/-- Four threads: two that write and two that read. -/
inductive Party
  | writer
  | reader
  | nextWriter
  | lastReader
  deriving DecidableEq, Repr

theorem Party.mem_all (p : Party) : p ∈ ({.writer, .reader, .nextWriter, .lastReader} : Finset Party) := by
  cases p <;> decide

instance Party.fintype : Fintype Party := ⟨{.writer, .reader, .nextWriter, .lastReader}, Party.mem_all⟩

/-- A thread goes on so many times. -/
def goes (t : T) (times : ℕ) : List (T × Choice) := replicate times (t, .go true)

/-- A turn of the writer, which gives the lock back. -/
def release : Party × Choice := (.writer, .go true)

/-- The writer has the lock, a reader and the next writer wait, and the writer is about to give the lock back. -/
def queuedTurns : List (Party × Choice) :=
  (Party.writer, .call .wrlock) :: goes Party.writer 6 ++ (Party.reader, .call .rdlock) :: goes Party.reader 4 ++
    (Party.nextWriter, .call .wrlock) :: goes Party.nextWriter 5 ++ (Party.writer, .call .wrunlock) :: goes Party.writer 1

/-- The reader has the lock and leaves, and the next writer is about to take it. -/
def servedTurns : List (Party × Choice) :=
  goes Party.writer 3 ++ goes Party.reader 2 ++ (Party.reader, .call .rdunlock) :: goes Party.reader 5 ++ goes Party.nextWriter 2

/-- A writer releases; the reader of the phase holds the lock before the next writer takes it. -/
theorem run_takes_turns_served :
    ReleasesWrite (run .writerPriority queuedTurns) release ∧
      ((run .writerPriority (queuedTurns ++ release :: servedTurns)).own .nextWriter).loc.takes = true ∧
      ∃ mid rest, servedTurns = mid ++ rest ∧
        (((run .writerPriority (queuedTurns ++ release :: mid)).own .reader).holdsRead = true ∨
          ((run .writerPriority (queuedTurns ++ release :: mid)).own .reader).loc = .rdGiveUp true) := by
  have hmt : Meets step DrainsPhase (initial Party .writerPriority) (queuedTurns ++ release :: servedTurns) := by decide +kernel
  have hr : ReleasesWrite (run .writerPriority queuedTurns) release := by decide +kernel
  have ht : ((run .writerPriority (queuedTurns ++ release :: servedTurns)).own .nextWriter).loc.takes = true := by decide +kernel
  exact ⟨hr, ht, (run_takes_turns hmt).1 _ _ _ rfl hr .reader 0 .nextWriter (by decide +kernel) ht⟩

/-- The writer has the lock, two readers and the next writer wait, and the writer is about to give the lock back. -/
def waitingTurns : List (Party × Choice) :=
  (Party.writer, .call .wrlock) :: goes Party.writer 6 ++ (Party.reader, .call .rdlock) :: goes Party.reader 4 ++
    (Party.lastReader, .call .rdlock) :: goes Party.lastReader 4 ++ (Party.nextWriter, .call .wrlock) :: goes Party.nextWriter 5 ++
    (Party.writer, .call .wrunlock) :: goes Party.writer 1

/-- One reader has the lock and leaves before the other has run, which closes the phase, and the next writer takes the lock. -/
def overtakingTurns : List (Party × Choice) := servedTurns ++ goes Party.nextWriter 2

/-- The other reader waits when the writer gives the lock back, and still does, without a turn, when the next writer has it. -/
theorem run_overtakes :
    ReleasesWrite (run .writerPriority waitingTurns) release ∧
      HoldsWrite (run .writerPriority (waitingTurns ++ release :: overtakingTurns)) .nextWriter ∧
      ∀ mid ∈ overtakingTurns.inits,
        (run .writerPriority (waitingTurns ++ release :: mid)).own .lastReader = ⟨.rdWait (some 1), none⟩ := by
  decide +kernel

end RwLock

end Libft.PThread
