import Libft.Threading.Lemmas.Pooled

/-!
# How the threads of a pool go on

An endless run is fair (`Fair`) if every thread has its turn again and again, and a thread that waits for a mutex gets it, if it is free
again and again. Then every thread that is not in the function of a task goes on: one turn leads to the next place (`goes_on`), the work
mutex is free again and again (`work_recurs`), so that it is got (`lock_work`), and a worker that is in no function comes back to the
queue (`reaches_test`).
-/

namespace Libft.Threading

open Threads Option List PoolLoc Nat PoolOwn

namespace PoolLoc

/-- Under the work mutex: before the last turn. -/
def tests : PoolLoc → Bool
  | wTest | wDone | sTest _ | waTest | dStop => true
  | _ => false

/-- Under the work mutex: the last turn. -/
def unlocks : PoolLoc → Bool
  | wQuit | wSleep | wTaken _ | wUnlock | sUnlock _ | waUnlock _ | dUnlock => true
  | _ => false

theorem insideWork_eq (l : PoolLoc) : l.insideWork = (l.tests || l.unlocks) := by cases l <;> rfl

/-- A thread that goes on by its own turns. -/
def busy : PoolLoc → Bool
  | idle | wRun _ => false
  | _ => true

/-- The place that the next turn leads to, where it is the same in every pool. -/
def next : PoolLoc → Option PoolLoc
  | wSleep | wUnlock => some wLock
  | wTaken e => some (wCall e)
  | wDone => some wUnlock
  | sTest w => some (sUnlock w)
  | sUnlock w => some (sEnd w)
  | sEnd none => some idle
  | sEnd (some k) => some (wRun k)
  | waUnlock true => some waEnd
  | waUnlock false => some waWork
  | waEnd => some idle
  | _ => none

variable {l : PoolLoc}

theorem busy_of_next {r : PoolLoc} (h : l.next = some r) : l.busy = true := by
  cases l <;> first | rfl | cases h

theorem busy_of_tests (h : l.tests = true) : l.busy = true := by
  cases l <;> first | rfl | exact h

theorem busy_of_unlocks (h : l.unlocks = true) : l.busy = true := by
  cases l <;> first | rfl | exact h

end PoolLoc

namespace ThreadPool

variable {T : Type} [DecidableEq T]

/-- A thread has the turn, and goes on. -/
def Goes (ts : ℕ → T × PoolChoice) (t : T) (n : ℕ) : Prop := ∃ stores adds, ts n = (t, .go stores adds)

/-- The states of an endless run of a pool. -/
def states [Fintype T] (wk : T → Bool) (maxTasks : ℕ) (threadSafe : Bool) (ts : ℕ → T × PoolChoice) : ℕ → System T :=
  course step (initial wk maxTasks threadSafe) ts

/-- Every thread has its turns, and a mutex that is free again and again is got by a thread that waits for it. -/
structure Fair (x : ℕ → System T) (ts : ℕ → T × PoolChoice) : Prop where
  goes : ∀ t, Recurs (Goes ts t)
  work : ∀ t n l, TakesWork ((x n).own t).loc l → Recurs (fun m => (x m).shared.workMutex = none) →
    ∃ m, n ≤ m ∧ ((x m).own t).loc ≠ ((x n).own t).loc
  safe : ∀ t n l, TakesSafe ((x n).own t).loc l → Recurs (fun m => (x m).shared.threadSafeMutex = none) →
    ∃ m, n ≤ m ∧ ((x m).own t).loc ≠ ((x n).own t).loc

/-! ## The mutexes -/

/-- The mutexes are held where the places say so. -/
structure Held (c : System T) : Prop where
  work : Holds workMutex (fun o => o.loc.insideWork) c
  safe : Holds threadSafeMutex (fun o => o.loc.insideSafe) c

section Mutexes

variable {t : T} {ch : PoolChoice} {s s' : ThreadPool T} {o o' : PoolOwn}

/-- A move keeps the work mutex with one thread. -/
theorem Move.work (h : Move t ch s o s' o') : TurnHolds workMutex (fun o => o.loc.insideWork) t s o s' o' := by
  have hu : ∀ {o' : PoolOwn} {a : ℕ}, TurnHolds workMutex (fun o => o.loc.insideWork) t s o
      { s.unlockWork t with alive := a } o' := by
    intro o' a
    by_cases hmn : s.workMutex = some t
    · exact .inr (.inr ⟨hmn, by simp [unlockWork, hmn]⟩)
    · exact .inl ⟨by simp [unlockWork, hmn], fun h => absurd h hmn⟩
  obtain ⟨m, hs⟩ := (unlock_eq t s).2
  obtain ⟨l, err, before⟩ := o
  cases h with
  | pass h =>
    refine .inl ⟨rfl, fun _ hin => ?_⟩
    cases h with
    | stay => exact hin
    | gone _ h => cases h <;> cases hin
    | sleep _ _ | quit _ _ | refuse _ | look => rfl
    | _ => cases hin
  | lock hf h => exact .inr (.inl ⟨hf, rfl, by cases h <;> rfl⟩)
  | unlock _ => exact hu (a := (s.unlockWork t).alive)
  | quit _ => exact hu
  | lockSafe _ h => exact .inl ⟨rfl, fun _ hin => by cases h <;> cases hin⟩
  | unlockSafe h => exact .inl ⟨by rw [hs], fun _ hin => by cases h <;> cases hin⟩
  | take _ _ | leave _ | stop _ | accept _ _ _ _ => exact .inl ⟨rfl, fun _ _ => rfl⟩
  | submit hloc _ | nested hloc _ | wait hloc _ | destroy hloc _ | call hloc | returns hloc | clean hloc =>
    cases hloc
    exact .inl ⟨rfl, fun _ hin => by cases hin⟩

/-- A move keeps the outer mutex with one thread. -/
theorem Move.safe (h : Move t ch s o s' o') : TurnHolds threadSafeMutex (fun o => o.loc.insideSafe) t s o s' o' := by
  obtain ⟨m, hw⟩ := (unlock_eq t s).1
  obtain ⟨l, err, before⟩ := o
  cases h with
  | pass h =>
    refine .inl ⟨rfl, fun _ hin => ?_⟩
    cases h with
    | stay => exact hin
    | gone _ h => cases h <;> first | rfl | cases hin
    | refuse _ | look => rfl
    | _ => cases hin
  | lock _ h => exact .inl ⟨rfl, fun _ hin => by cases h <;> first | rfl | cases hin⟩
  | unlock h => exact .inl ⟨by rw [hw], fun _ hin => by cases h <;> first | rfl | cases hin⟩
  | lockSafe hf h => exact .inr (.inl ⟨hf, rfl, by cases h <;> rfl⟩)
  | unlockSafe h =>
    by_cases hmn : s.threadSafeMutex = some t
    · exact .inr (.inr ⟨hmn, by simp [unlockInternal, hmn]⟩)
    · exact .inl ⟨by simp [unlockInternal, hmn], fun h => absurd h hmn⟩
  | accept _ _ _ _ => exact .inl ⟨rfl, fun _ _ => rfl⟩
  | quit hl =>
    cases hl
    exact .inl ⟨by rw [hw], fun _ hin => by cases hin⟩
  | take hl _ | submit hl _ | nested hl _ | wait hl _ | destroy hl _ | call hl | returns hl
    | leave hl | stop hl | clean hl =>
    cases hl
    exact .inl ⟨rfl, fun _ hin => by cases hin⟩

end Mutexes

/-- Every turn keeps both mutexes with one thread each. -/
theorem Held.step {c : System T} {i : T × PoolChoice} (h : Held c) : Held (step c i) where
  work := h.work.step (turn_move i.1 c.shared (c.own i.1) i.2).work
  safe := h.safe.step (turn_move i.1 c.shared (c.own i.1) i.2).safe

section Go

variable {t : T} {s : ThreadPool T} {o : PoolOwn} {a b : Bool} {l : PoolLoc}

/-- Inside, a thread comes to the place where it unlocks. -/
theorem go_tests (h : o.loc.tests = true) (hd : s.destroyed = false) : (s.go t o a b).2.loc.unlocks = true := by
  unfold go
  cases hloc : o.loc with
  | wTest =>
    dsimp only
    split
    · split <;> rfl
    · rfl
  | waTest => simp [hd, goto, unlocks]
  | wDone | sTest | dStop => rfl
  | _ => rw [hloc] at h; cases h

/-- From there it leaves. -/
theorem go_unlocks (h : o.loc.unlocks = true) : (s.go t o a b).2.loc.insideWork = false := by
  unfold go
  cases hloc : o.loc with
  | wQuit | wSleep | wTaken | wUnlock | sUnlock | dUnlock => rfl
  | waUnlock fin => cases fin <;> rfl
  | _ => rw [hloc] at h; cases h

/-- A thread with one way to go takes it. -/
theorem go_next (h : o.loc.next = some l) : (s.go t o a b).2.loc = l := by
  unfold go
  cases hloc : o.loc with
  | sEnd w =>
    rw [hloc] at h
    cases w <;> exact some.inj h
  | waUnlock fin =>
    rw [hloc] at h
    cases fin <;> exact some.inj h
  | wSleep | wUnlock | wTaken | wDone | sTest | sUnlock | waEnd =>
    rw [hloc] at h
    exact some.inj h
  | _ => rw [hloc] at h; cases h

/-- A thread that waits for the work mutex takes it or stays. -/
theorem go_takesWork (h : TakesWork o.loc l) : s.go t o a b = s.lockWork t o l := by
  unfold go
  generalize o.loc = l' at h
  cases h <;> rfl

omit [DecidableEq T] in
theorem lockWork_own (l : PoolLoc) : (s.lockWork t o l).2 = o ∨ (s.lockWork t o l).2 = o.goto l := by
  unfold lockWork
  split
  · exact .inr rfl
  · split
    · exact .inr rfl
    · exact .inl rfl

end Go

variable {x : ℕ → System T} {ts : ℕ → T × PoolChoice} {t : T} {n m : ℕ}

/-- The thread comes to a place. -/
def Comes (x : ℕ → System T) (t : T) (n : ℕ) (l : PoolLoc) : Prop := ∃ m, n ≤ m ∧ ((x m).own t).loc = l

/-- Every function of a task that has been called ends. -/
def TasksEnd (x : ℕ → System T) : Prop :=
  ∀ t n k, ((x n).own t).loc.within = some k → ∃ m, n ≤ m ∧ ((x m).own t).loc.within ≠ some k

/-- The task has a position in the queue. -/
def Queued (i p : ℕ) (tasks : List PoolTask) : Prop :=
  ∃ before e after, tasks = before ++ e :: after ∧ e.number = i ∧ before.length = p

section Queued

variable {i p : ℕ} {tasks tl : List PoolTask} {e : PoolTask}

/-- A task in the queue has a position there. -/
theorem queued_of_mem (he : e ∈ tasks) (hi : e.number = i) : ∃ p, Queued i p tasks := by
  obtain ⟨before, after, rfl⟩ := append_of_mem he
  exact ⟨before.length, before, e, after, rfl, hi, rfl⟩

theorem Queued.ne_nil (h : Queued i p tasks) : tasks ≠ [] := by
  obtain ⟨before, e, after, rfl, -⟩ := h
  simp

/-- A task that is added is behind the others. -/
theorem Queued.append (h : Queued i p tasks) (e : PoolTask) : Queued i p (tasks ++ [e]) := by
  obtain ⟨before, e', after, rfl, hi, hp⟩ := h
  exact ⟨before, e', after ++ [e], by simp, hi, hp⟩

theorem Queued.head (h : Queued i 0 tasks) (ht : tasks = e :: tl) : e.number = i := by
  obtain ⟨before, e', after, rfl, hi, hp⟩ := h
  rw [length_eq_zero_iff.mp hp] at ht
  exact (cons.inj ht).1 ▸ hi

/-- When the head is taken, the others move up. -/
theorem Queued.tail (h : Queued i (p + 1) tasks) (ht : tasks = e :: tl) : Queued i p tl := by
  obtain ⟨before, e', after, rfl, hi, hp⟩ := h
  cases before with
  | nil => exact absurd hp (succ_ne_zero p).symm
  | cons e'' before =>
    exact ⟨before, e', after, (cons.inj ht).2.symm, hi, succ.inj hp⟩

end Queued

/-- A mutex is free when its holder has left. -/
theorem free_of_leaves {owner : ThreadPool T → Option T} {inside : PoolOwn → Bool} (hh : ∀ n, Holds owner inside (x n))
    (htr : ∀ n, TurnHolds owner inside (ts n).1 (x n).shared ((x n).own (ts n).1) (x (n + 1)).shared
      ((x (n + 1)).own (ts n).1))
    (hmn : owner (x n).shared = some t) (hl : ∃ m, n ≤ m ∧ inside ((x m).own t) = false) : ∃ m, n ≤ m ∧ owner (x m).shared = none := by
  obtain ⟨m, hle, hm, hn⟩ := exists_exit (P := fun m => owner (x m).shared = some t) hmn <| by
    obtain ⟨m, hle, ho⟩ := hl
    exact ⟨m, hle, fun h => Bool.false_ne_true (ho.symm.trans (hh m t h))⟩
  refine ⟨m + 1, le_succ_of_le hle, ?_⟩
  by_cases ht : t = (ts m).1
  · subst ht
    rcases htr m with ⟨hs, -⟩ | ⟨hf, -⟩ | ⟨-, hf⟩
    · exact absurd (hs.trans hm) hn
    · exact absurd (hf.symm.trans hm) (some_ne_none _).symm
    · exact hf
  · exact absurd (((htr m).other ht).mpr hm) hn

section Steps

variable (hx : ∀ n, x (n + 1) = step (x n) (ts n))

include hx

/-- Every turn of an endless run is a move. -/
theorem move_at (n : ℕ) : Move (ts n).1 (ts n).2 (x n).shared ((x n).own (ts n).1) (x (n + 1)).shared
    ((x (n + 1)).own (ts n).1) := by
  rw [hx, step, own_step_self]
  exact turn_move ..

/-- The other threads stay where they are. -/
theorem own_of_ne (h : t ≠ (ts n).1) : (x (n + 1)).own t = (x n).own t := by
  rw [hx]
  exact own_step_of_ne h

/-- A turn of the thread itself, or nothing happens to it. -/
theorem own_or_move (t : T) (n : ℕ) : (x (n + 1)).own t = (x n).own t ∨
    (ts n).1 = t ∧ Move t (ts n).2 (x n).shared ((x n).own t) (x (n + 1)).shared ((x (n + 1)).own t) := by
  by_cases h : t = (ts n).1
  · subst h
    exact .inr ⟨rfl, move_at hx n⟩
  · exact .inl (own_of_ne hx h)

theorem goes_at {stores adds : Bool} (h : ts n = (t, .go stores adds)) :
    (x (n + 1)).shared = ((x n).shared.go t ((x n).own t) stores adds).1 ∧
      (x (n + 1)).own t = ((x n).shared.go t ((x n).own t) stores adds).2 := by
  have ho : (step (x n) (ts n)).own (ts n).1 = _ := own_step_self
  rw [hx]
  constructor
  · rw [step, h]
    rfl
  · rw [h] at ho
    rw [h]
    exact ho

/-- A busy thread stays as it is until it goes on. -/
theorem own_of_not_goes (hb : ((x n).own t).loc.busy = true) (h : ¬Goes ts t n) : (x (n + 1)).own t = (x n).own t := by
  by_cases ht : t = (ts n).1
  · have ho : (step (x n) (ts n)).own (ts n).1 = _ := own_step_self
    rw [hx]
    subst ht
    rw [ho]
    cases hch : (ts n).2 with
    | call c =>
      have hid : ((x n).own (ts n).1).loc ≠ .idle := fun h => by rw [h] at hb; exact Bool.false_ne_true hb
      simp [turn, hid]
    | submits | returns =>
      dsimp only [turn]
      split
      · rename_i k hl
        rw [hl] at hb
        cases hb
      · rfl
    | go stores adds => exact absurd ⟨stores, adds, Prod.ext rfl hch⟩ h
  · exact own_of_ne hx ht

variable (hfair : Fair x ts) {l : PoolLoc}

include hfair

/-- A busy thread goes on from where it is. -/
theorem goes_on (hb : ((x n).own t).loc.busy = true) : ∃ m, n ≤ m ∧ (x m).own t = (x n).own t ∧ Goes ts t m :=
  exists_turn (P := fun m => (x m).own t = (x n).own t) rfl
    (fun _ hk hn => (own_of_not_goes hx (hk ▸ hb) hn).trans hk) (fun _ => hfair.goes t n)

/-- A turn that leads to a place. -/
theorem reaches {Q : PoolLoc → Prop} (hl : ((x n).own t).loc = l) (hb : l.busy = true)
    (hgo : ∀ m a b, ((x m).own t).loc = l → Q ((x m).shared.go t ((x m).own t) a b).2.loc) : ∃ m, n ≤ m ∧ Q ((x m).own t).loc := by
  obtain ⟨m, hle, hs, a, b, ht⟩ := goes_on hx hfair (t := t) (hl ▸ hb)
  refine ⟨m + 1, le_succ_of_le hle, ?_⟩
  rw [(goes_at hx ht).2]
  exact hgo m a b (hs ▸ hl)

/-! ## Getting the work mutex -/

/-- A thread inside the work mutex leaves it. -/
theorem leaves_work (hd : ∀ m, (x m).shared.destroyed = false) (h : ((x n).own t).loc.insideWork = true) :
    ∃ m, n ≤ m ∧ ((x m).own t).loc.insideWork = false := by
  have hu : ∀ {n : ℕ}, ((x n).own t).loc.unlocks = true → ∃ m, n ≤ m ∧ ((x m).own t).loc.insideWork = false :=
    fun {n} h => reaches hx hfair (n := n) rfl (busy_of_unlocks h) (Q := fun l => l.insideWork = false)
      fun m a b hl => go_unlocks (hl ▸ h)
  rw [insideWork_eq, Bool.or_eq_true_iff] at h
  rcases h with h | h
  · have ht := reaches hx hfair (n := n) rfl (busy_of_tests h) (Q := fun l => l.unlocks = true)
      fun m a b hl => go_tests (hl ▸ h) (hd m)
    exact exists_later ht fun m => hu
  · exact hu h

variable (hheld : ∀ n, Held (x n)) {l' : PoolLoc}

include hheld

/-- The work mutex is free again and again. -/
theorem work_recurs (hd : ∀ m, (x m).shared.destroyed = false) : Recurs fun m => (x m).shared.workMutex = none := by
  intro n
  cases hmt : (x n).shared.workMutex with
  | none => exact ⟨n, le_refl n, hmt⟩
  | some t =>
    exact free_of_leaves (fun n => (hheld n).work) (fun n => (move_at hx n).work) hmt (leaves_work hx hfair hd ((hheld n).work t hmt))

omit hfair hheld in
/-- Once destroyed, the pool stays so. -/
theorem destroyed_stays (hd : (x n).shared.destroyed = true) (hle : n ≤ m) : (x m).shared.destroyed = true :=
  lasts (P := fun m => (x m).shared.destroyed = true) (fun k hk => (move_at hx k).destroyed_stays hk) hd hle

/-- A thread that waits for the work mutex leaves its place: it passes where there is no mutex any more, and otherwise gets it. -/
theorem leaves_lock (h : TakesWork ((x n).own t).loc l) (hb : ((x n).own t).loc.busy = true) :
    ∃ m, n ≤ m ∧ (x m).own t ≠ (x n).own t := by
  by_cases hd : ∃ m, (x m).shared.destroyed = true
  · obtain ⟨m, hd⟩ := hd
    by_contra hnot
    push Not at hnot
    obtain ⟨k, hle, -, a, b, htr⟩ := goes_on hx hfair (t := t) (n := max n m) (hnot _ (le_max_left n m) ▸ hb)
    have ho := (goes_at hx htr).2
    have hgn := destroyed_stays hx hd (le_trans (le_max_right n m) hle)
    have hnk := le_trans (le_max_left n m) hle
    rw [hnot k hnk, hnot (k + 1) (le_succ_of_le hnk), go_takesWork h, lockWork, if_pos hgn] at ho
    have hl := congrArg loc ho
    generalize ((x n).own t).loc = l' at h hl
    cases h <;> cases hl
  · push Not at hd
    obtain ⟨m, hle, hne⟩ := hfair.work t n l h (work_recurs hx hfair hheld fun m => eq_false_of_ne_true (hd m))
    exact ⟨m, hle, fun h => hne (congrArg loc h)⟩

/-- A thread that waits for the work mutex gets it. -/
theorem lock_work (h : TakesWork ((x n).own t).loc l) : ∃ m, n ≤ m ∧ (x m).own t = ((x n).own t).goto l := by
  have hb : ((x n).own t).loc.busy = true := by
    generalize ((x n).own t).loc = l' at h
    cases h <;> rfl
  obtain ⟨m, hle, hm, hn⟩ := exists_exit (P := fun m => (x m).own t = (x n).own t) rfl (leaves_lock hx hfair hheld h hb)
  refine ⟨m + 1, le_succ_of_le hle, ?_⟩
  by_cases hg : Goes ts t m
  · obtain ⟨a, b, ht⟩ := hg
    have ho := (goes_at hx ht).2
    rw [hm, go_takesWork h] at ho
    rw [ho] at hn ⊢
    exact (lockWork_own l).resolve_left hn
  · exact absurd ((own_of_not_goes hx (hm ▸ hb) hg).trans hm) hn

/-! ## The worker's loop -/

omit [DecidableEq T] hx hfair hheld in
theorem Comes.trans (h : Comes x t n l) (h' : ∀ m, ((x m).own t).loc = l → Comes x t m l') : Comes x t n l' :=
  exists_later h h'

/-- A thread that waits for the work mutex comes in. -/
theorem comes_lock (h : TakesWork l l') (hl : ((x n).own t).loc = l) : Comes x t n l' := by
  obtain ⟨m, hle, hm⟩ := lock_work hx hfair hheld (t := t) (n := n) (hl ▸ h)
  exact ⟨m, hle, by rw [hm]; rfl⟩

omit hfair hheld in
/-- A function ends with the return of its task. -/
theorem returns_of_ends (hends : TasksEnd x) {k : ℕ} (h : ((x n).own t).loc.within = some k) :
    ∃ m, n ≤ m ∧ ((x (m + 1)).own t).loc = .wRelock ∧ (x (m + 1)).shared.finished = bump (x m).shared.finished k := by
  obtain ⟨m, hle, hm, hn⟩ := exists_exit (P := fun m => ((x m).own t).loc.within = some k) h (hends t n k h)
  rcases own_or_move hx t m with hs | ⟨-, hmv⟩
  · exact absurd (hs ▸ hm) hn
  · exact ⟨m, hle, hmv.within_exit hm hn⟩

omit hheld in
theorem comes_next {r : PoolLoc} (h : l.next = some r) (hl : ((x n).own t).loc = l) : Comes x t n r :=
  reaches hx hfair hl (busy_of_next h) (Q := fun m => m = r) fun _ _ _ ho => go_next (ho ▸ h)

/-- A worker that does not return comes back to the queue. -/
theorem reaches_test (hends : TasksEnd x) (hw : ((x n).own t).loc.works = true) (hq : ((x n).own t).loc ≠ .wQuit) : Comes x t n .wTest := by
  have hlc : ∀ n, ((x n).own t).loc = .wLock → Comes x t n .wTest := fun n => comes_lock hx hfair hheld .worker
  have hu : ∀ n, ((x n).own t).loc = .wUnlock → Comes x t n .wTest := fun n h =>
    (comes_next hx hfair rfl h).trans hlc
  have hd : ∀ n, ((x n).own t).loc = .wDone → Comes x t n .wTest := fun n h =>
    (comes_next hx hfair rfl h).trans hu
  have hr : ∀ n, ((x n).own t).loc = .wRelock → Comes x t n .wTest := fun n h =>
    (comes_lock hx hfair hheld .again h).trans hd
  have hwt : ∀ n k, ((x n).own t).loc.within = some k → Comes x t n .wTest := by
    intro n k h
    obtain ⟨m, hle, hm, -⟩ := returns_of_ends hx hends h
    exact Comes.trans ⟨m + 1, le_succ_of_le hle, hm⟩ hr
  have hcl : ∀ n e, ((x n).own t).loc = .wCall e → Comes x t n .wTest := by
    intro n e h
    have hc := reaches hx hfair h rfl (Q := fun l => l = .wRelock ∨ l.within = some e.number) fun m a b hl => by
      unfold go
      rw [hl]
      dsimp only
      split
      · exact .inr rfl
      · exact .inl rfl
    exact exists_later hc fun m hm => hm.elim (hr m) (hwt m e.number)
  cases hloc : ((x n).own t).loc with
  | wLock => exact hlc n hloc
  | wTest => exact ⟨n, le_refl n, hloc⟩
  | wQuit => exact absurd hloc hq
  | wSleep => exact (comes_next hx hfair rfl hloc).trans hlc
  | wTaken e =>
    exact (comes_next hx hfair rfl hloc).trans fun m => hcl m e
  | wCall e => exact hcl n e hloc
  | wRelock => exact hr n hloc
  | wDone => exact hd n hloc
  | wUnlock => exact hu n hloc
  | wRun k => exact hwt n k (hloc ▸ rfl)
  | sLock w | sWork w | sTest w | sUnlock w | sEnd w =>
    rw [hloc] at hw
    obtain ⟨k, rfl⟩ := isSome_iff_exists.mp hw
    exact hwt n k (hloc ▸ rfl)
  | _ => rw [hloc] at hw; cases hw

/-! ## Every accepted task is executed -/

variable [Fintype T] {wk : T → Bool} {maxTasks : ℕ} {i p : ℕ}

section

variable (hends : TasksEnd x) (hsound : ∀ n, Sound wk maxTasks (x n)) (hworker : ∃ w, wk w = true)

include hends hsound hworker

/-- While a task is in the queue, the front of the queue is taken. -/
theorem pops_of_queued
    (hn : Queued i p (x n).shared.tasks) : ∃ m, n ≤ m ∧ Queued i p (x m).shared.tasks ∧
      ∃ e t, (x m).shared.tasks = e :: (x (m + 1)).shared.tasks ∧ ((x (m + 1)).own t).loc = .wTaken e := by
  refine exists_turn (P := fun m => Queued i p (x m).shared.tasks) hn (fun k hk hnot => ?_) fun hl => ?_
  · rcases (move_at hx k).tasks with hsm | ⟨e, ha⟩ | ⟨e, hp, htk⟩ | hc
    · exact hsm ▸ hk
    · exact ha ▸ hk.append e
    · exact absurd ⟨e, _, hp, htk⟩ hnot
    · have hnt := (hsound k).notes (ts k).1
      rw [hc] at hnt
      exact absurd ((hsound k).tasks_nil hworker hnt) hk.ne_nil
  · obtain ⟨w, hw⟩ := hworker
    have hs : ∀ m, n ≤ m → ¬(((x m).own w).loc = .wQuit ∨ ((x m).own w).loc = .done) := by
      intro m hle h
      have hnt := (hsound m).notes w
      refine (hl m hle).ne_nil ?_
      rcases h with h | h <;> rw [h] at hnt <;> exact hnt.2
    have hwr := ((hsound n).workers w hw).resolve_right fun h => hs n (le_refl n) (.inr h)
    obtain ⟨m, hle, hm⟩ := reaches_test hx hfair hheld hends hwr fun h => hs n (le_refl n) (.inl h)
    obtain ⟨m', hl', hsm, a, b, htr⟩ := goes_on hx hfair (t := w) (n := m) (by rw [hm]; rfl)
    obtain ⟨hsh, ho⟩ := goes_at hx htr
    cases ht : (x m').shared.tasks with
    | nil => exact absurd ht (hl m' (le_trans hle hl')).ne_nil
    | cons e tl =>
      refine ⟨m', le_trans hle hl', e, w, ?_, ?_⟩
      · rw [hsh]
        simp [go, hsm, hm, ht]
      · rw [ho]
        simp [go, hsm, hm, ht, goto]

/-- A task at a position of the queue is taken by a worker. -/
theorem taken_of_queued : ∀ {p n : ℕ}, Queued i p (x n).shared.tasks → ∃ m t e, n ≤ m ∧ ((x m).own t).loc = .wTaken e ∧ e.number = i := by
  intro p
  induction p with
  | zero =>
    intro n hn
    obtain ⟨m, hle, hm, e, t, ht, htk⟩ := pops_of_queued hx hfair hheld hends hsound hworker hn
    exact ⟨m + 1, t, e, le_succ_of_le hle, htk, hm.head ht⟩
  | succ p ih =>
    intro n hn
    obtain ⟨m, hle, hm, e, t, ht, htk⟩ := pops_of_queued hx hfair hheld hends hsound hworker hn
    obtain ⟨m', t', e', hl', ht'⟩ := ih (hm.tail ht)
    exact ⟨m', t', e', by omega, ht'⟩

/-- Every accepted task is finished. -/
theorem finished_of_accepted (hi : i < (x n).shared.accepted) : ∃ m, n ≤ m ∧ (x m).shared.finished i = 1 := by
  have hw : ∀ n t, ((x n).own t).loc.within = some i → ∃ m, n ≤ m ∧ (x m).shared.finished i = 1 := by
    intro n t h
    obtain ⟨m, hle, -, hm⟩ := returns_of_ends hx hends h
    refine ⟨m + 1, le_succ_of_le hle, ?_⟩
    have ho := ((hsound (m + 1)).once i).2
    rw [hm, bump_self] at ho ⊢
    omega
  have hc : ∀ n t e, ((x n).own t).loc = .wCall e → e.number = i → ∃ m, n ≤ m ∧ (x m).shared.finished i = 1 := by
    rintro n t e h rfl
    have hr := reaches hx hfair h rfl (Q := fun l => l = .wRun e.number) fun m a b hl => by
      simp [go, hl, (hsound n).wrappers t e (h ▸ rfl), goto]
    exact exists_later hr fun m hm => hw m t (hm ▸ rfl)
  have htk : ∀ n t e, ((x n).own t).loc = .wTaken e → e.number = i → ∃ m, n ≤ m ∧ (x m).shared.finished i = 1 := by
    intro n t e h he
    exact exists_later (comes_next hx hfair rfl h) fun m hm => hc m t e hm he
  have hcnt := (hsound n).accounted i
  by_cases hq : ∃ e ∈ (x n).shared.tasks, e.number = i
  · obtain ⟨e, he, hn⟩ := hq
    obtain ⟨p, hp⟩ := queued_of_mem he hn
    obtain ⟨m, t, e', hle, ht', hn'⟩ := taken_of_queued hx hfair hheld hends hsound hworker hp
    obtain ⟨m', hl', hm'⟩ := htk m t e' ht' hn'
    exact ⟨m', le_trans hle hl', hm'⟩
  · have hz : (x n).shared.tasks.countP (fun e => e.number = i) = 0 := countP_eq_zero.mpr fun e he h => hq ⟨e, he, of_decide_eq_true h⟩
    by_cases hh : ∃ t, ((x n).own t).loc.task = some i
    · obtain ⟨t, ht⟩ := hh
      cases hloc : ((x n).own t).loc with
      | wTaken e => rw [hloc] at ht; exact htk n t e hloc (some.inj ht)
      | wCall e => rw [hloc] at ht; exact hc n t e hloc (some.inj ht)
      | _ => exact hw n t (by rw [hloc] at ht ⊢; exact ht)
    · have hno : tally (fun o : PoolOwn => o.loc.task == some i) (x n).own = 0 :=
        tally_eq_zero.mpr fun t => beq_eq_false_iff_ne.mpr fun h => hh ⟨t, h⟩
      rw [hz, hno] at hcnt
      exact ⟨n, le_refl n, by simpa [acceptedCount, hi] using hcnt.symm⟩

end

end Steps

/-! ## The runs of a pool -/

section Runs

variable [Fintype T] {wk : T → Bool} {maxTasks : ℕ} {threadSafe : Bool}

theorem held_states (n : ℕ) : Held (states wk maxTasks threadSafe ts n) := by
  refine course_invariant (P := fun _ _ => True) (fun c i h _ => h.step) ?_ (fun _ => trivial) n
  exact ⟨nofun, nofun⟩

theorem sound_states (hworker : ∃ w, wk w = true)
    (hs : ∀ n, stores (states wk maxTasks threadSafe ts n) (ts n) = true) (n : ℕ) :
    Sound wk maxTasks (states wk maxTasks threadSafe ts n) :=
  course_invariant (P := fun c i => stores c i = true) (fun _ _ h hP => h.step hworker hP) (.initial wk maxTasks threadSafe)
    hs n

end Runs

/-! ## Runs that are written out -/

omit [DecidableEq T] in
/-- A run is fair, if all threads are at rest again and again. -/
theorem fair_of_rests (hg : ∀ t, Recurs (Goes ts t))
    (hr : ∀ t, Recurs fun m => ((x m).own t).loc = .wTest ∨ ((x m).own t).loc = .idle) : Fair x ts := by
  have hl : ∀ t n, ¬(((x n).own t).loc = .wTest ∨ ((x n).own t).loc = .idle) →
      ∃ m, n ≤ m ∧ ((x m).own t).loc ≠ ((x n).own t).loc := by
    intro t n hn
    obtain ⟨m, hle, hm⟩ := hr t n
    exact ⟨m, hle, fun heq => hn (heq ▸ hm)⟩
  refine ⟨hg, fun t n l h _ => hl t n ?_, fun t n l h _ => hl t n ?_⟩
  · rintro (hloc | hloc) <;> rw [hloc] at h <;> cases h
  · rintro (hloc | hloc) <;> rw [hloc] at h <;> cases h

omit [DecidableEq T] in
/-- Its tasks end then. -/
theorem tasksEnd_of_rests (hr : ∀ t, Recurs fun m => ((x m).own t).loc = .wTest ∨ ((x m).own t).loc = .idle) : TasksEnd x := by
  intro t n k _
  obtain ⟨m, hle, hm⟩ := hr t n
  refine ⟨m, hle, ?_⟩
  rcases hm with hm | hm <;> rw [hm] <;> exact (some_ne_none k).symm

/-- Thread `a` is the only worker. -/
def onlyA (t : Name) : Bool := t == .a

/-- The worker looks for a task, and the others have nothing to do. -/
def roundTurns : List (Name × PoolChoice) :=
  List.flatten [List.replicate 3 (.a, .go true true), [(.b, .go true true), (.c, .go true true)]]

/-- In a round every thread has a turn. -/
theorem goes_roundTurns (first : List (Name × PoolChoice)) (t : Name) :
    Recurs (Goes (cycle first roundTurns (.a, .go true true)) t) := by
  cases t with
  | a => exact fun n => (recurs_cycle (j := 0) (by decide) n).imp fun m h => ⟨h.1, true, true, h.2⟩
  | b => exact fun n => (recurs_cycle (j := 3) (by decide) n).imp fun m h => ⟨h.1, true, true, h.2⟩
  | c => exact fun n => (recurs_cycle (j := 4) (by decide) n).imp fun m h => ⟨h.1, true, true, h.2⟩

end ThreadPool

end Libft.Threading
