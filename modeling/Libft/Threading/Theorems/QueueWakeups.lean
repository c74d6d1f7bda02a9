import Libft.Threading.BlockingQueue

/-!
# Wake-ups of consumers

`push` signals the condition only when the queue was empty. Two elements pushed before a consumer has run wake one consumer, and the other
sleeps on with an element in the queue. Where no element is added to a queue that has one while a consumer is asleep and not woken,
there are as many consumers woken as there are elements, or as there are consumers.
-/

namespace Libft.Threading

open Finset Threads

/-- A thread holds the mutex. -/
def QueueLoc.inside {α : Type} : QueueLoc α → Bool
  | .psStore _ | .psSignal | .wpTest _ | .wpWait | .take _ | .sdSet | .unlock => true
  | _ => false

/-- A push is about to add its element. -/
def QueueLoc.stores {α : Type} : QueueLoc α → Bool
  | .psStore _ => true
  | _ => false

/-- A consumer is asleep, or has been woken and has not looked at the queue yet. -/
def QueueLoc.waits {α : Type} : QueueLoc α → Bool
  | .wpAsleep => true
  | .wpTest slept | .take slept => slept
  | _ => false

namespace BlockingQueue

variable {T α : Type}

/-! ## Turns -/

/-- A turn that changes the place of the thread only. -/
inductive Passes (s : BlockingQueue T α) : QueueLoc α → QueueLoc α → Prop
  | stay (l : QueueLoc α) : Passes s l l
  | push (v : α) : Passes s .idle (.psLock v)
  | waitPop : Passes s .idle .wpLock
  | pop : Passes s .idle .poLock
  | shutdown : Passes s .idle .sdLock
  | storeNot (v : α) : Passes s (.psStore v) .unlock
  | signalNot : s.waiters = ∅ → Passes s .psSignal .unlock
  | testTake (slept : Bool) : s.storage ≠ [] → Passes s (.wpTest slept) (.take slept)
  | testWait (slept : Bool) : s.storage = [] → Passes s (.wpTest slept) .wpWait
  | testNot (slept : Bool) : s.storage = [] → Passes s (.wpTest slept) .unlock

/-- A turn that takes the mutex. -/
inductive Enters (t : T) (s : BlockingQueue T α) : QueueLoc α → QueueLoc α → Prop
  | push (v : α) : Enters t s (.psLock v) (.psStore v)
  | waitPop : Enters t s .wpLock (.wpTest false)
  | woken : t ∉ s.waiters → Enters t s .wpAsleep (.wpTest true)
  | pop : Enters t s .poLock (.take false)
  | shutdown : Enters t s .sdLock .sdSet

variable [DecidableEq T]

/-- What a turn does. -/
inductive Move (t : T) (s : BlockingQueue T α) (o : QueueOwn α) : BlockingQueue T α → QueueOwn α → Prop
  | pass {l : QueueLoc α} {result : Option α} : Passes s o.loc l → Move t s o s ⟨l, result⟩
  | lock {l : QueueLoc α} : s.mutex = none → Enters t s o.loc l → Move t s o { s with mutex := some t } (o.goto l)
  | store {v : α} : o.loc = .psStore v →
      Move t s o { s with storage := s.storage ++ [v] } (o.goto (if s.storage = [] then .psSignal else .unlock))
  | signal {pick : T} : o.loc = .psSignal → pick ∈ s.waiters → Move t s o { s with waiters := s.waiters.erase pick } (o.goto .unlock)
  | sleep : o.loc = .wpWait → Move t s o { s with mutex := none, waiters := insert t s.waiters } (o.goto .wpAsleep)
  | take {slept : Bool} : o.loc = .take slept → Move t s o { s with storage := s.storage.tail } ⟨.unlock, s.storage.head?⟩
  | shut : o.loc = .sdSet → Move t s o { s with shutdown := true, waiters := ∅ } (o.goto .unlock)
  | unlock : o.loc = .unlock → Move t s o { s with mutex := none } (o.goto .idle)
  | wake : o.loc = .wpAsleep → Move t s o { s with waiters := s.waiters.erase t } o
  | stop : Move t s o { s with running := false } o

variable {t u : T} {s s' : BlockingQueue T α} {o o' : QueueOwn α} {l l' : QueueLoc α}

theorem lock_move (h : Enters t s o.loc l) : Move t s o (s.lock t o l).1 (s.lock t o l).2 := by
  unfold BlockingQueue.lock
  split
  · exact .lock ‹_› h
  · exact .pass (.stay _)

/-- Every turn is a move. -/
theorem turn_move (t : T) (s : BlockingQueue T α) (o : QueueOwn α) (ch : QueueChoice T α) :
    Move t s o (turn t s o ch).1 (turn t s o ch).2 := by
  have hs : Move t s o s o := .pass (.stay o.loc)
  cases ch with
  | call c =>
    dsimp only [turn]
    split
    · rename_i hl
      cases c with
      | push v => exact .pass (hl ▸ .push v)
      | waitPop => exact .pass (hl ▸ .waitPop)
      | pop => exact .pass (hl ▸ .pop)
      | shutdown => exact .pass (hl ▸ .shutdown)
    · exact hs
  | wake =>
    dsimp only [turn]
    split
    · exact .wake ‹_›
    · exact hs
  | stop => exact .stop
  | go pick ok =>
    dsimp only [turn, go]
    split
    · exact hs
    · rename_i v hl
      exact lock_move (hl ▸ .push v)
    · rename_i v hl
      split
      · exact .store hl
      · exact .pass (hl ▸ .storeNot v)
    · rename_i hl
      split
      · exact .pass (hl ▸ .signalNot ‹_›)
      · split
        · exact .signal hl ‹_›
        · exact hs
    · rename_i hl
      exact lock_move (hl ▸ .waitPop)
    · rename_i slept hl
      split
      · exact .pass (hl ▸ .testTake slept ‹_›)
      · rename_i hn
        split
        · exact .pass (hl ▸ .testNot slept (not_not.mp hn))
        · exact .pass (hl ▸ .testWait slept (not_not.mp hn))
    · exact .sleep ‹_›
    · rename_i hl
      split
      · exact hs
      · exact lock_move (hl ▸ .woken ‹_›)
    · exact .take ‹_›
    · rename_i hl
      exact lock_move (hl ▸ .pop)
    · rename_i hl
      exact lock_move (hl ▸ .shutdown)
    · exact .shut ‹_›
    · exact .unlock ‹_›

/-! ## The mutex and the condition -/

omit [DecidableEq T] in
theorem Passes.inside (h : Passes s l l') : l'.inside = l.inside := by
  cases h <;> rfl

omit [DecidableEq T] in
theorem Enters.inside (h : Enters t s l l') : l'.inside = true := by
  cases h <;> rfl

/-- A move keeps the mutex with one thread. -/
theorem Move.locks (h : Move t s o s' o') : TurnLocks mutex (fun o : QueueOwn α => o.loc.inside) t s o s' o' := by
  have hlv : ∀ {l : QueueLoc α}, o.loc = l → l.inside = true → o.loc.inside = true := fun hc hl => hc ▸ hl
  have hs : ∀ {l l' : QueueLoc α}, o.loc = l → l'.inside = l.inside → l'.inside = o.loc.inside := fun hc hl => hc ▸ hl
  cases h with
  | pass hp => exact .inl ⟨rfl, hp.inside⟩
  | lock hf hin => exact .inr (.inl ⟨hf, rfl, hin.inside⟩)
  | store hc => exact .inl ⟨rfl, hs hc (by split <;> rfl)⟩
  | signal hc _ | take hc | shut hc => exact .inl ⟨rfl, hs hc rfl⟩
  | sleep hc | unlock hc => exact .inr (.inr ⟨hlv hc rfl, rfl, rfl⟩)
  | wake _ | stop => exact .inl ⟨rfl, rfl⟩

/-- What a thread inside the mutex has seen of the storage, and where the waiters are. -/
structure Seen (t : T) (s : BlockingQueue T α) (o : QueueOwn α) : Prop where
  wait : o.loc = .wpWait → s.storage = []
  signal : o.loc = .psSignal → s.storage.length = 1
  waiter : t ∈ s.waiters → o.loc = .wpAsleep

/-- A move keeps what its thread has seen right. -/
theorem Move.seen (h : Move t s o s' o') (hs : Seen t s o) : Seen t s' o' := by
  -- a waiter is asleep, and does nothing else
  have hn : ∀ {l : QueueLoc α}, o.loc = l → l ≠ .wpAsleep → t ∉ s.waiters := by
    rintro l hc hl hin
    exact hl (hc ▸ hs.waiter hin)
  cases h with
  | @pass l _ hp =>
    refine ⟨?_, ?_, fun hin => ?_⟩
    · intro hl
      obtain rfl : l = .wpWait := hl
      generalize hc : o.loc = l at hp
      cases hp with
      | stay => exact hs.wait hc
      | testWait _ hnil => exact hnil
    · intro hl
      obtain rfl : l = .psSignal := hl
      generalize hc : o.loc = l at hp
      cases hp with
      | stay => exact hs.signal hc
    · have hc := hs.waiter hin
      rw [hc] at hp
      cases hp
      rfl
  | @lock l _ hin =>
    refine ⟨?_, ?_, fun hw => ?_⟩
    · intro hl
      obtain rfl : l = .wpWait := hl
      generalize o.loc = l at hin
      cases hin
    · intro hl
      obtain rfl : l = .psSignal := hl
      generalize o.loc = l at hin
      cases hin
    · have hc := hs.waiter hw
      rw [hc] at hin
      cases hin with
      | woken ho => exact absurd hw ho
  | @store v hc =>
    refine ⟨?_, ?_, fun hin => absurd hin (hn hc (by rintro ⟨⟩))⟩
    · dsimp only [QueueOwn.goto]
      split <;> rintro ⟨⟩
    · dsimp only [QueueOwn.goto]
      split
      · rename_i hnil
        intro _
        rw [hnil]
        rfl
      · rintro ⟨⟩
  | @signal pick hc _ =>
    exact ⟨by rintro ⟨⟩, by rintro ⟨⟩, fun hin => absurd (mem_of_mem_erase hin) (hn hc (by rintro ⟨⟩))⟩
  | sleep _ => exact ⟨by rintro ⟨⟩, by rintro ⟨⟩, fun _ => rfl⟩
  | take hc | unlock hc => exact ⟨by rintro ⟨⟩, by rintro ⟨⟩, fun hin => absurd hin (hn hc (by rintro ⟨⟩))⟩
  | shut _ => exact ⟨by rintro ⟨⟩, by rintro ⟨⟩, fun hin => absurd hin (notMem_empty t)⟩
  | wake hc => exact ⟨hs.wait, hs.signal, fun _ => hc⟩
  | stop => exact { hs with }

/-- The storage changes inside the mutex only, and a turn makes nobody else a waiter. -/
theorem Move.frame (h : Move t s o s' o') :
    (o.loc.inside = true ∨ s'.storage = s.storage) ∧ ∀ u, u ≠ t → u ∈ s'.waiters → u ∈ s.waiters := by
  cases h with
  | store hl | take hl => exact ⟨.inl (by rw [hl]; rfl), fun _ _ hin => hin⟩
  | signal _ _ | wake _ => exact ⟨.inr rfl, fun _ _ hin => mem_of_mem_erase hin⟩
  | sleep _ => exact ⟨.inr rfl, fun u hu hin => (mem_insert.mp hin).resolve_left hu⟩
  | shut _ => exact ⟨.inr rfl, fun u _ hin => absurd hin (notMem_empty u)⟩
  | _ => exact ⟨.inr rfl, fun _ _ hin => hin⟩

/-- The mutex is held by the thread inside, and every thread has seen what is so. -/
structure Sound (c : System T α) : Prop where
  locks : Locks mutex (fun o : QueueOwn α => o.loc.inside) c
  seen : ∀ t, Seen t c.shared (c.own t)

variable {c : System T α}

omit [DecidableEq T] in
theorem sound_initial : Sound (initial T α) where
  locks t := ⟨nofun, nofun⟩
  seen t := ⟨by rintro ⟨⟩, by rintro ⟨⟩, fun hin => absurd hin (notMem_empty t)⟩

/-- Every turn keeps the queue sound. -/
theorem Sound.step (h : Sound c) (i : T × QueueChoice T α) : Sound (step c i) := by
  have hmv := turn_move i.1 c.shared (c.own i.1) i.2
  refine ⟨h.locks.step hmv.locks, forall_own_step (P := Seen) (hmv.seen (h.seen i.1)) fun u hu => ?_⟩
  have hs : (c.own u).loc.inside = true → (BlockingQueue.step c i).shared.storage = c.shared.storage := by
    intro hin
    refine hmv.frame.1.resolve_left fun hmn => hu (h.locks.eq hin hmn)
  refine ⟨fun hl => ?_, fun hl => ?_, fun hin => (h.seen u).waiter (hmv.frame.2 u hu hin)⟩
  · exact (hs (by rw [hl]; rfl)).trans ((h.seen u).wait hl)
  · exact (congrArg List.length (hs (by rw [hl]; rfl))).trans ((h.seen u).signal hl)

/-! ## Who is woken -/

section Woken

variable [Fintype T]

/-- The consumers that are asleep in `wait_pop`, those that were woken and have not looked at the queue yet included. -/
def asleep (c : System T α) : Finset T := univ.filter fun t => (c.own t).loc.waits = true

/-- Those of them with a wake-up. -/
def woken (c : System T α) : Finset T := univ.filter fun t => (c.own t).loc.waits = true ∧ t ∉ c.shared.waiters

/-- A turn that does not add an element to others while a consumer is asleep and not woken. -/
def PushesAwake (c : System T α) (i : T × QueueChoice T α) : Prop :=
  (c.own i.1).loc.stores = true → c.shared.storage ≠ [] → c.shared.waiters = ∅

/-- A push is about to signal, or all that are asleep are woken, or at least one for each element. -/
def Awake (c : System T α) : Prop :=
  (∃ t, (c.own t).loc = .psSignal) ∨ c.shared.waiters = ∅ ∨ c.shared.storage.length ≤ (woken c).card

/-- Who is woken: it waits and is not asleep any more. -/
theorem mem_woken : t ∈ woken c ↔ (c.own t).loc.waits = true ∧ t ∉ c.shared.waiters := by
  unfold woken
  rw [mem_filter]
  exact ⟨fun h => h.2, fun h => ⟨mem_univ t, h⟩⟩

/-- A turn takes the wake-up of no other thread. -/
theorem woken_erase_subset (c : System T α) (i : T × QueueChoice T α) : (woken c).erase i.1 ⊆ woken (step c i) := by
  intro u hu
  obtain ⟨hne, hin⟩ := mem_erase.mp hu
  obtain ⟨hwt, ho⟩ := mem_woken.mp hin
  have hmv := turn_move i.1 c.shared (c.own i.1) i.2
  have hn : (step c i).own u = c.own u := own_step_of_ne hne
  exact mem_woken.mpr ⟨by rw [hn]; exact hwt, fun hw => ho (hmv.frame.2 u hne hw)⟩

/-- A turn uses up one wakeup at most. -/
theorem card_woken_le (c : System T α) (i : T × QueueChoice T α) : (woken c).card ≤ (woken (step c i)).card + 1 := by
  have hs := card_le_card (woken_erase_subset c i)
  have he := pred_card_le_card_erase (s := woken c) (a := i.1)
  omega

/-- And none of its own, if the thread stays asleep. -/
theorem card_woken_le_of_keeps (i : T × QueueChoice T α)
    (h : (c.own i.1).loc.waits = true → i.1 ∉ c.shared.waiters →
      ((step c i).own i.1).loc.waits = true ∧ i.1 ∉ (step c i).shared.waiters) : (woken c).card ≤ (woken (step c i)).card := by
  refine card_le_card fun u hu => ?_
  rcases eq_or_ne u i.1 with rfl | hne
  · obtain ⟨hw, ho⟩ := mem_woken.mp hu
    exact mem_woken.mpr (h hw ho)
  · exact woken_erase_subset c i (mem_erase.mpr ⟨hne, hu⟩)

end Woken

/-- What a turn does to the balance of elements and wake-ups. -/
inductive Balance (t : T) (s : BlockingQueue T α) (o : QueueOwn α) (s' : BlockingQueue T α) (o' : QueueOwn α) : Prop
  | signals : o'.loc = .psSignal → Balance t s o s' o'
  | nobody : s'.waiters = ∅ → Balance t s o s' o'
  | empty : s'.storage = [] → Balance t s o s' o'
  | takes (slept : Bool) : o.loc = .take slept → s'.waiters = s.waiters → s'.storage = s.storage.tail → Balance t s o s' o'
  | wakes (pick : T) : o.loc = .psSignal → pick ∈ s.waiters → s'.waiters = s.waiters.erase pick → s'.storage = s.storage →
      Balance t s o s' o'
  | keeps : s'.storage = s.storage → s'.waiters ⊆ s.waiters → o.loc ≠ .psSignal →
      (o.loc.waits = true → t ∉ s.waiters → o'.loc.waits = true) → Balance t s o s' o'

/-- A move changes values and wakeups together. -/
theorem Move.balance (h : Move t s o s' o') (hsn : Seen t s o)
    (hp : o.loc.stores = true → s.storage ≠ [] → s.waiters = ∅) : Balance t s o s' o' := by
  have hk : ∀ {s' : BlockingQueue T α} {o' : QueueOwn α} {l : QueueLoc α}, o.loc = l → s'.storage = s.storage →
      s'.waiters ⊆ s.waiters → l ≠ .psSignal → (l.waits = true → o'.loc.waits = true) → Balance t s o s' o' :=
    fun hc hs hw hl hwt => .keeps hs hw (hc ▸ hl) fun h _ => hwt (hc ▸ h)
  cases h with
  | @pass l _ hps =>
    generalize hc : o.loc = l0 at hps
    cases hps with
    | stay =>
      by_cases hsg : l = .psSignal
      · exact .signals hsg
      · exact hk hc rfl (Subset.refl _) hsg id
    | push | waitPop | pop | shutdown | storeNot => exact hk hc rfl (Subset.refl _) (by rintro ⟨⟩) (by rintro ⟨⟩)
    | signalNot hno => exact .nobody hno
    | testTake slept _ => exact hk hc rfl (Subset.refl _) (by rintro ⟨⟩) id
    | testWait _ hnil | testNot _ hnil => exact .empty hnil
  | @lock l _ hin =>
    generalize hc : o.loc = l0 at hin
    cases hin with
    | woken _ => exact hk hc rfl (Subset.refl _) (by rintro ⟨⟩) id
    | _ => exact hk hc rfl (Subset.refl _) (by rintro ⟨⟩) (by rintro ⟨⟩)
  | @store v hc =>
    by_cases hnil : s.storage = []
    · exact .signals (if_pos hnil)
    · exact .nobody (hp (by rw [hc]; rfl) hnil)
  | @signal pick hc hin => exact .wakes pick hc hin rfl rfl
  | sleep hc => exact .empty (hsn.wait hc)
  | @take slept hc => exact .takes slept hc rfl rfl
  | shut _ => exact .nobody rfl
  | unlock hc => exact hk hc rfl (Subset.refl _) (by rintro ⟨⟩) (by rintro ⟨⟩)
  | wake hc => exact hk hc rfl (erase_subset _ _) (by rintro ⟨⟩) fun _ => by rw [hc]; rfl
  | stop =>
    by_cases hsg : o.loc = .psSignal
    · exact .signals hsg
    · exact hk rfl rfl (Subset.refl _) hsg id

variable [Fintype T]

/-- A turn that pushes to threads awake keeps enough threads woken. -/
theorem Awake.step (h : Awake c) (hsn : Sound c) (i : T × QueueChoice T α) (hi : PushesAwake c i) : Awake (step c i) := by
  have hsl : (BlockingQueue.step c i).own i.1 = (turn i.1 c.shared (c.own i.1) i.2).2 := own_step_self
  cases (turn_move i.1 c.shared (c.own i.1) i.2).balance (hsn.seen i.1) hi with
  | signals hl => exact .inl ⟨i.1, by rw [hsl]; exact hl⟩
  | nobody hno => exact .inr (.inl hno)
  | empty hn => exact .inr (.inr (by rw [show (BlockingQueue.step c i).shared.storage = [] from hn]; exact Nat.zero_le _))
  | takes slept hl hw hs =>
    rcases h with ⟨u, hu⟩ | hno | hle
    · -- two threads are not inside at once
      obtain rfl := hsn.locks.eq (t := u) (u := i.1) (by rw [hu]; rfl) (by rw [hl]; rfl)
      rw [hu] at hl
      cases hl
    · exact .inr (.inl (hw.trans hno))
    · refine .inr (.inr ?_)
      have hc := card_woken_le c i
      have hlen : (BlockingQueue.step c i).shared.storage.length = c.shared.storage.length - 1 :=
        (congrArg List.length hs).trans List.length_tail
      omega
  | wakes pick hl hin hw hs =>
    have ha := (hsn.seen pick).waiter hin
    have hne : pick ≠ i.1 := by
      rintro rfl
      rw [ha] at hl
      cases hl
    have hwk : pick ∈ woken (BlockingQueue.step c i) := by
      refine mem_woken.mpr ⟨?_, ?_⟩
      · rw [show (BlockingQueue.step c i).own pick = c.own pick from own_step_of_ne hne, ha]
        rfl
      · rw [show (BlockingQueue.step c i).shared.waiters = _ from hw]
        exact notMem_erase pick _
    have he : (BlockingQueue.step c i).shared.storage.length = 1 := (congrArg List.length hs).trans ((hsn.seen i.1).signal hl)
    refine .inr (.inr ?_)
    rw [he]
    exact card_pos.mpr ⟨pick, hwk⟩
  | keeps hs hw hl hwt =>
    rcases h with ⟨u, hu⟩ | hno | hle
    · refine .inl ⟨u, ?_⟩
      have hne : u ≠ i.1 := fun heq => hl (heq ▸ hu)
      rw [show (BlockingQueue.step c i).own u = c.own u from own_step_of_ne hne]
      exact hu
    · exact .inr (.inl (subset_empty.mp (hno ▸ hw)))
    · refine .inr (.inr ((congrArg List.length hs).trans_le (hle.trans ?_)))
      refine card_woken_le_of_keeps i fun h ho => ⟨?_, fun hin => ho (hw hin)⟩
      rw [hsl]
      exact hwt h ho

omit [DecidableEq T] in
theorem awake_initial [DecidableEq T] : Awake (initial T α) := .inr (.inl rfl)

/-- In a run in which no element is added to others while a consumer is asleep and not woken, in every state in which no push is about
to signal at least `min k w` of the `w` consumers asleep are woken, for `k` elements. -/
theorem run_wakes {turns : List (T × QueueChoice T α)} (h : Meets step PushesAwake (initial T α) turns)
    (hpush : ∀ t, ((run turns).own t).loc ≠ .psSignal) :
    min (run turns).shared.storage.length (asleep (run turns)).card ≤ (woken (run turns)).card := by
  have he : Sound (run turns) ∧ Awake (run turns) :=
    h.invariant (I := fun c => Sound c ∧ Awake c) (fun _ i hc hi => ⟨hc.1.step i, hc.2.step hc.1 i hi⟩) ⟨sound_initial, awake_initial⟩
  rcases he.2 with ⟨t, ht⟩ | hno | hle
  · exact absurd ht (hpush t)
  · have ha : asleep (run turns) ⊆ woken (run turns) := by
      intro t ht
      refine mem_woken.mpr ⟨(mem_filter.mp ht).2, ?_⟩
      rw [hno]
      exact notMem_empty t
    exact (Nat.min_le_right _ _).trans (card_le_card ha)
  · exact (Nat.min_le_left _ _).trans hle

instance PushesAwake.decidable (c : System T α) (i : T × QueueChoice T α) : Decidable (PushesAwake c i) :=
  inferInstanceAs (Decidable (_ → _ → _))

/-- A call of a thread, and the turns in which it goes on, with a signal for `pick`. -/
def callTurns (t pick : T) (c : QueueCall α) (n : ℕ) : List (T × QueueChoice T α) :=
  (t, .call c) :: List.replicate n (t, .go pick true)

/-- Two consumers are asleep, and an element is pushed. -/
def oneTurns : List (Name × QueueChoice Name ℕ) :=
  callTurns .a .a .waitPop 3 ++ callTurns .b .b .waitPop 3 ++ callTurns .c .a (.push 5) 4

/-- One value and two threads asleep. -/
theorem run_wakes_one : (asleep (run oneTurns)).card = 2 ∧ (run oneTurns).shared.storage = [5] ∧
    min (run oneTurns).shared.storage.length (asleep (run oneTurns)).card ≤ (woken (run oneTurns)).card :=
  ⟨by decide +kernel, by decide +kernel, run_wakes (by decide +kernel) (by decide +kernel)⟩

/-- Two consumers are asleep, and two elements are pushed before one of them runs. -/
def twoTurns : List (Name × QueueChoice Name ℕ) := oneTurns ++ callTurns .c .a (.push 7) 3

/-- Both pushes have returned; there are two elements and two consumers asleep, and one of them has a wake-up. -/
theorem run_wakes_not : (run twoTurns).shared.storage = [5, 7] ∧ (run twoTurns).shared.mutex = none ∧
    ((run twoTurns).own .c).loc = .idle ∧ (asleep (run twoTurns)).card = 2 ∧ (woken (run twoTurns)).card = 1 := by
  decide +kernel

end BlockingQueue

end Libft.Threading
