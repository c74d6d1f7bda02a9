import Libft.Threading.Lemmas.PoolProgress

/-!
# Waiting for the pool

A call of `submit` that has the mutex for thread safety gives it back. A call of `wait` keeps it until the queue is empty and no worker
is active; a `submit` that a task makes meanwhile has to wait, and the worker with it. Where the two do not meet (`Quiet`), the calls
that tasks make return, so that the tasks end, and when no more are submitted the pool comes to rest (`comes_to_rest`).
-/

namespace Libft.Threading

open Finset Threads Bool Nat PoolOwn

namespace PoolLoc

/-- In `wait`. -/
def waits : PoolLoc → Bool
  | waLock | waWork | waTest | waUnlock _ | waEnd => true
  | _ => false

/-- In a `submit` that a task has called. -/
def nested : PoolLoc → Bool
  | sLock w | sWork w | sTest w | sUnlock w | sEnd w => w.isSome
  | _ => false

/-- In `submit`, before the queue. -/
def submitting : PoolLoc → Bool
  | sLock _ | sWork _ | sTest _ => true
  | _ => false

theorem within_of_waits {l : PoolLoc} (h : l.waits = true) : l.within = none := by
  cases l <;> first | rfl | exact absurd h false_ne_true

end PoolLoc

namespace ThreadPool

variable {T : Type}

/-- With thread safety, a task calls `submit` when nobody is in `wait`, and `wait` is called when no task is in `submit`. -/
def quiet (c : System T) (i : T × PoolChoice) : Prop :=
  c.shared.threadSafe = true →
    match (c.own i.1).loc, i.2 with
    | .wRun _, .submits => ∀ t, (c.own t).loc.waits = false
    | .idle, .call .wait => ∀ t, (c.own t).loc.nested = false
    | _, _ => True

theorem quiet_of_ne {c : System T} {i : T × PoolChoice} (hs : i.2 ≠ .submits) (hw : i.2 ≠ .call .wait) : quiet c i := by
  intro _
  split
  · exact absurd ‹_› hs
  · exact absurd ‹_› hw
  · trivial

/-- With thread safety, no task is in `submit` while somebody is in `wait`. -/
def Quiet (c : System T) : Prop :=
  c.shared.threadSafe = true → (∀ t, (c.own t).loc.waits = false) ∨ ∀ t, (c.own t).loc.nested = false

variable [DecidableEq T]

section Moves

variable {t : T} {ch : PoolChoice} {s s' : ThreadPool T} {o o' : PoolOwn}

section

variable (h : Move t ch s o s' o')

include h

/-- The flag of the outer mutex stays as it is. -/
theorem Move.threadSafe : s'.threadSafe = s.threadSafe := by
  obtain ⟨⟨m, hw⟩, m', hs⟩ := unlock_eq t s
  cases h with
  | unlock _ | quit _ => rw [hw]
  | unlockSafe _ => rw [hs]
  | _ => rfl

/-- A thread is in `wait` since it called it. -/
theorem Move.waits (hin : o'.loc.waits = true) : o.loc.waits = true ∧ o'.before = o.before ∨ o.loc = .idle ∧ ch = .call .wait := by
  obtain ⟨l, err, before⟩ := o
  cases h with
  | pass h =>
    cases h with
    | gone _ h => cases h <;> first | exact .inl ⟨rfl, rfl⟩ | cases hin
    | stay => exact .inl ⟨hin, rfl⟩
    | freeWait _ | look => exact .inl ⟨rfl, rfl⟩
    | _ => cases hin
  | lock _ h | unlock h | lockSafe _ h | unlockSafe h => cases h <;> first | exact .inl ⟨rfl, rfl⟩ | cases hin
  | wait hl hch => exact .inr ⟨hl, hch⟩
  | _ => cases hin

/-- It leaves `wait` at its end. -/
theorem Move.waits_exit (hin : o.loc.waits = true) (ho : o'.loc.waits = false) : o.loc = .waEnd ∧ o'.loc = .idle := by
  obtain ⟨l, err, before⟩ := o
  cases h with
  | pass h =>
    cases h with
    | gone _ h => cases h <;> first | exact absurd hin false_ne_true | exact absurd ho.symm false_ne_true
    | stay => exact absurd (ho.symm.trans hin) false_ne_true
    | _ => first | exact absurd hin false_ne_true | exact absurd ho.symm false_ne_true
  | lock _ h | unlock h | lockSafe _ h =>
    cases h <;> first | exact absurd hin false_ne_true | exact absurd ho.symm false_ne_true
  | unlockSafe h =>
    cases h with
    | wait => exact ⟨rfl, rfl⟩
    | _ => cases hin
  | wait hl _ => cases ho
  | take hl _ | submit hl _ | nested hl _ | destroy hl _ | quit hl | call hl | returns hl
    | leave hl | stop hl | clean hl | accept hl _ _ _ => cases hl; cases hin

/-- A thread comes into a nested submit only from a task. -/
theorem Move.nested_enter (hin : o'.loc.nested = true) : o.loc.nested = true ∨ ∃ k, o.loc = .wRun k ∧ ch = .submits := by
  obtain ⟨l, err, before⟩ := o
  cases h with
  | pass h =>
    cases h with
    | gone _ h => cases h <;> exact .inl hin
    | stay | refuse _ | freeSubmit _ _ => exact .inl hin
    | _ => cases hin
  | lock _ h | unlock h | lockSafe _ h | unlockSafe h => cases h <;> first | exact .inl hin | cases hin
  | nested hl hch => exact .inr ⟨_, hl, hch⟩
  | accept hl _ _ _ =>
    cases hl
    exact .inl hin
  | _ => cases hin

/-- A thread comes to `submit` by a call, and to the queue once in a call. -/
theorem Move.submitting :
    (o'.loc.submitting = true → o.loc.submitting = true ∨ ch = .call .submit ∨ ch = .submits) ∧
    (s'.accepted = s.accepted ∨ o.loc.submitting = true ∧ o'.loc.submitting = false) := by
  obtain ⟨⟨m, hw⟩, m', hs⟩ := unlock_eq t s
  obtain ⟨l, err, before⟩ := o
  cases h with
  | pass h =>
    refine ⟨fun hin => .inl ?_, .inl rfl⟩
    cases h with
    | gone _ h => cases h <;> first | rfl | cases hin
    | stay => exact hin
    | freeSubmit _ _ => rfl
    | _ => cases hin
  | lock _ h | lockSafe _ h => exact ⟨fun hin => .inl (by cases h <;> first | rfl | cases hin), .inl rfl⟩
  | unlock h =>
    rw [hw]
    exact ⟨fun hin => .inl (by cases h <;> cases hin), .inl rfl⟩
  | unlockSafe h =>
    rw [hs]
    exact ⟨fun hin => .inl (by cases h <;> cases hin), .inl rfl⟩
  | submit _ hch => exact ⟨fun _ => .inr (.inl hch), .inl rfl⟩
  | nested _ hch => exact ⟨fun _ => .inr (.inr hch), .inl rfl⟩
  | accept hl _ _ _ =>
    cases hl
    exact ⟨fun hin => .inl rfl, .inr ⟨rfl, rfl⟩⟩
  | quit _ =>
    rw [hw]
    exact ⟨nofun, .inl rfl⟩
  | _ => exact ⟨nofun, .inl rfl⟩

/-- A worker becomes active by taking a task. -/
theorem Move.counted_enter (hin : o'.loc.counted = true) : o.loc.counted = true ∨ s.tasks ≠ [] := by
  obtain ⟨l, err, before⟩ := o
  cases h with
  | pass h =>
    rcases h.sameRole with hr | ⟨e, rfl, -, -⟩
    · exact .inl (hr.counted ▸ hin)
    · exact .inl rfl
  | lock _ h | lockSafe _ h | unlock h | unlockSafe h => exact .inl (h.sameRole.counted ▸ hin)
  | take _ hc => exact .inr (hc ▸ List.cons_ne_nil _ _)
  | accept hl _ _ _ =>
    cases hl
    exact .inl hin
  | nested hl _ | call hl | returns hl => cases hl; exact .inl rfl
  | _ => cases hin

end

end Moves

variable {c : System T} {i : T × PoolChoice}

/-- Nobody is in `wait` until it is called. -/
theorem waits_step (h : ∀ t, (c.own t).loc.waits = false) (hn : ¬((c.own i.1).loc = .idle ∧ i.2 = .call .wait)) :
    ∀ t, ((step c i).own t).loc.waits = false := by
  refine forall_own_step (P := fun (_ : T) (_ : ThreadPool T) (o : PoolOwn) => o.loc.waits = false) ?_ fun t _ => h t
  refine eq_false_iff.mpr fun hin => ?_
  rcases (turn_move i.1 c.shared (c.own i.1) i.2).waits hin with ⟨ho, -⟩ | hc
  · exact false_ne_true ((h i.1).symm.trans ho)
  · exact hn hc

/-- No task is in `submit` until one calls it. -/
theorem nested_step (h : ∀ t, (c.own t).loc.nested = false) (hn : ¬∃ k, (c.own i.1).loc = .wRun k ∧ i.2 = .submits) :
    ∀ t, ((step c i).own t).loc.nested = false := by
  refine forall_own_step (P := fun (_ : T) (_ : ThreadPool T) (o : PoolOwn) => o.loc.nested = false) ?_ fun t _ => h t
  refine eq_false_iff.mpr fun hin => ?_
  rcases (turn_move i.1 c.shared (c.own i.1) i.2).nested_enter hin with ho | hc
  · exact false_ne_true ((h i.1).symm.trans ho)
  · exact hn hc

/-- Where no call comes in, what is quiet stays quiet. -/
theorem Quiet.step (h : Quiet c) (hq : quiet c i) : Quiet (step c i) := by
  intro hsf
  have hs' : c.shared.threadSafe = true := (turn_move i.1 c.shared (c.own i.1) i.2).threadSafe.symm.trans hsf
  have hc := hq hs'
  by_cases hw : (c.own i.1).loc = .idle ∧ i.2 = .call .wait
  · rw [hw.1, hw.2] at hc
    refine .inr (nested_step hc ?_)
    rintro ⟨k, hl, -⟩
    rw [hw.1] at hl
    cases hl
  · by_cases hs : ∃ k, (c.own i.1).loc = .wRun k ∧ i.2 = .submits
    · obtain ⟨k, hl, hch⟩ := hs
      rw [hl, hch] at hc
      exact .inl (waits_step hc hw)
    · exact (h hs').imp (fun hno => waits_step hno hw) (fun hno => nested_step hno hs)

/-! ## Progress -/

/-- Every task ends, if the calls of `submit` that it makes return. -/
def TasksEndIfSubmitsReturn (x : ℕ → System T) : Prop :=
  ∀ t n k, ((x n).own t).loc.within = some k → (∀ m, n ≤ m → ∃ m', m ≤ m' ∧ ((x m').own t).loc.nested = false) →
    ∃ m, n ≤ m ∧ ((x m).own t).loc.within ≠ some k

omit [DecidableEq T] in
theorem lockInternal_own {t : T} {s : ThreadPool T} {o : PoolOwn} (l : PoolLoc) : (s.lockInternal t o l).2 = o ∨
    (s.lockInternal t o l).2 = o.goto l := by
  unfold lockInternal
  split
  · split
    · exact .inr rfl
    · exact .inl rfl
  · exact .inr rfl

/-- A thread that waits for the outer mutex takes it or stays. -/
theorem go_takesSafe {t : T} {s : ThreadPool T} {o : PoolOwn} {a b : Bool} {l : PoolLoc} (h : TakesSafe o.loc l) :
    s.go t o a b = s.lockInternal t o l := by
  unfold go
  generalize o.loc = l' at h
  cases h <;> rfl

section Progress

variable {x : ℕ → System T} {ts : ℕ → T × PoolChoice} {t u : T} {n : ℕ} (hx : ∀ n, x (n + 1) = step (x n) (ts n))
  (hfair : Fair x ts)

include hx hfair

/-- A thread gets the mutex for thread safety, if it is free again and again while the thread waits. -/
theorem lock_safe {l : PoolLoc} (h : TakesSafe ((x n).own t).loc l)
    (hf : (x n).shared.threadSafe = true → (∀ m, n ≤ m → (x m).own t = (x n).own t) →
      Recurs fun m => (x m).shared.threadSafeMutex = none) : ∃ m, n ≤ m ∧ (x m).own t = ((x n).own t).goto l := by
  have hb : ((x n).own t).loc.busy = true := by
    generalize ((x n).own t).loc = l' at h
    cases h <;> rfl
  have hl : ∃ m, n ≤ m ∧ ¬(x m).own t = (x n).own t := by
    by_contra hn
    have hs : ∀ m, n ≤ m → (x m).own t = (x n).own t := fun m hle => not_not.mp fun hne => hn ⟨m, hle, hne⟩
    by_cases hsf : (x n).shared.threadSafe = true
    · obtain ⟨m, hle, hm⟩ := hfair.safe t n l h (hf hsf hs)
      exact hm (congrArg loc (hs m hle))
    · -- without thread safety the next turn leads on
      obtain ⟨m, hle, hm, a, b, ht⟩ := goes_on hx hfair hb
      have hu : ¬(x m).shared.threadSafe = true := by
        refine lasts (P := fun m => ¬(x m).shared.threadSafe = true) (fun k hk => ?_) hsf hle
        rwa [(move_at hx k).threadSafe]
      have ho := (goes_at hx ht).2
      rw [hs (m + 1) (le_succ_of_le hle), hm, go_takesSafe h, lockInternal, if_neg hu] at ho
      have hc : ((x n).own t).loc = l := congrArg loc ho
      rw [hc] at h
      cases h
  obtain ⟨m, hle, hm, hn⟩ := exists_exit (P := fun m => (x m).own t = (x n).own t) rfl hl
  refine ⟨m + 1, le_succ_of_le hle, ?_⟩
  by_cases hg : Goes ts t m
  · obtain ⟨a, b, ht⟩ := hg
    have ho := (goes_at hx ht).2
    rw [hm, go_takesSafe h] at ho
    rw [ho] at hn ⊢
    exact (lockInternal_own l).resolve_left hn
  · exact absurd ((own_of_not_goes hx (hm ▸ hb) hg).trans hm) hn

variable (hh : ∀ n, Held (x n))

include hh

/-- A `submit` that has passed the mutex for thread safety returns. -/
theorem leaves_submit (hin : ((x n).own t).loc.insideSafe = true) (hw : ((x n).own t).loc.waits = false) :
    ∃ m, n ≤ m ∧ ((x m).own t).loc.insideSafe = false ∧ ((x m).own t).loc.nested = false := by
  have he : ∀ n w, ((x n).own t).loc = .sEnd w →
      ∃ m, n ≤ m ∧ ((x m).own t).loc.insideSafe = false ∧ ((x m).own t).loc.nested = false := fun n w h =>
    reaches hx hfair h rfl (Q := fun l => l.insideSafe = false ∧ l.nested = false) fun m a b hl => by
      cases w <;> simp [go, hl, goto, PoolLoc.insideSafe, PoolLoc.nested]
  have hu : ∀ n w, ((x n).own t).loc = .sUnlock w →
      ∃ m, n ≤ m ∧ ((x m).own t).loc.insideSafe = false ∧ ((x m).own t).loc.nested = false := fun n w h =>
    exists_later (comes_next hx hfair rfl h) fun m => he m w
  have ht : ∀ n w, ((x n).own t).loc = .sTest w →
      ∃ m, n ≤ m ∧ ((x m).own t).loc.insideSafe = false ∧ ((x m).own t).loc.nested = false := fun n w h =>
    exists_later (comes_next hx hfair rfl h) fun m => hu m w
  cases hloc : ((x n).own t).loc with
  | sWork w => exact exists_later (comes_lock hx hfair hh (.submit w) hloc) fun m => ht m w
  | sTest w => exact ht n w hloc
  | sUnlock w => exact hu n w hloc
  | sEnd w => exact he n w hloc
  | waWork | waTest | waUnlock _ | waEnd => rw [hloc] at hw; cases hw
  | _ => rw [hloc] at hin; cases hin

variable (hq : ∀ n, Quiet (x n))

include hq

/-- A `submit` that a task calls returns. -/
theorem nested_returns (h : ((x n).own t).loc.nested = true) : ∃ m, n ≤ m ∧ ((x m).own t).loc.nested = false := by
  by_cases hin : ((x n).own t).loc.insideSafe = true
  · have hw : ((x n).own t).loc.waits = false := by
      cases hl : ((x n).own t).loc <;> first | rfl | (rw [hl] at h; exact absurd h false_ne_true)
    obtain ⟨m, hle, -, hm⟩ := leaves_submit hx hfair hh hin hw
    exact ⟨m, hle, hm⟩
  · obtain ⟨w, hl⟩ : ∃ w, ((x n).own t).loc = .sLock w := by
      cases hl : ((x n).own t).loc with
      | sLock w => exact ⟨w, rfl⟩
      | sWork w | sTest w | sUnlock w | sEnd w => exact absurd (hl ▸ rfl) hin
      | _ => rw [hl] at h; cases h
    have ht : TakesSafe ((x n).own t).loc (.sWork w) := by rw [hl]; exact .submit w
    obtain ⟨m, hle, hm⟩ := lock_safe hx hfair ht fun hsf hs k => by
      -- while the task waits for the mutex, nobody is in `wait`, and whoever has the mutex is in `submit`
      have hno : ∀ u, ((x (max n k)).own u).loc.waits = false := by
        have hs' : (x (max n k)).shared.threadSafe = true := by
          refine lasts (P := fun m => (x m).shared.threadSafe = true) (fun j hj => ?_) hsf (le_max_left n k)
          exact (move_at hx j).threadSafe.trans hj
        refine (hq (max n k) hs').resolve_right fun hn => ?_
        have hns := hn t
        rw [hs _ (le_max_left n k), h] at hns
        exact false_ne_true hns.symm
      cases hmt : (x (max n k)).shared.threadSafeMutex with
      | none => exact ⟨max n k, le_max_right n k, hmt⟩
      | some u =>
        obtain ⟨m, hle, hm, -⟩ := leaves_submit hx hfair hh ((hh _).safe u hmt) (hno u)
        obtain ⟨m', hl', hm'⟩ := free_of_leaves (fun n => (hh n).safe) (fun n => (move_at hx n).safe) hmt ⟨m, hle, hm⟩
        exact ⟨m', le_trans (le_max_right n k) hl', hm'⟩
    have hc' : ((x m).own t).loc = .sWork w := by rw [hm]; rfl
    obtain ⟨m', hl', -, hm'⟩ := leaves_submit hx hfair hh (t := t) (n := m) (hc' ▸ rfl) (hc' ▸ rfl)
    exact ⟨m', le_trans hle hl', hm'⟩

/-- Tasks end where their submits return. -/
theorem tasksEnd (hends : TasksEndIfSubmitsReturn x) : TasksEnd x := by
  intro t n k h
  refine hends t n k h fun m hle => ?_
  cases hns : ((x m).own t).loc.nested with
  | false => exact ⟨m, le_refl m, hns⟩
  | true => exact nested_returns hx hfair hh hq hns

end Progress

/-! ## The pool comes to rest -/

section Rest

variable [Fintype T] {x : ℕ → System T} {ts : ℕ → T × PoolChoice} {wk : T → Bool} {maxTasks : ℕ}
  (hx : ∀ n, x (n + 1) = step (x n) (ts n))

include hx

/-- When nobody calls `submit` any more, no task is accepted from some moment on. -/
theorem accepted_constant (hf : ∃ N, ∀ n, N ≤ n → (ts n).2 ≠ .call .submit ∧ (ts n).2 ≠ .submits) :
    ∃ N, ∀ n, N ≤ n → (x n).shared.accepted = (x N).shared.accepted := by
  obtain ⟨N, hN⟩ := hf
  have hu : ∀ n, tally (fun o : PoolOwn => o.loc.submitting) (x (n + 1)).own +
      ((x n).own (ts n).1).loc.submitting.toNat = tally (fun o : PoolOwn => o.loc.submitting) (x n).own +
      ((x (n + 1)).own (ts n).1).loc.submitting.toNat := by
    intro n
    rw [hx, step, own_step_self]
    exact tally_update _ _ _ _
  have hl : ∀ n, N ≤ n →
      ((x (n + 1)).own (ts n).1).loc.submitting.toNat ≤ ((x n).own (ts n).1).loc.submitting.toNat := by
    intro n hle
    refine toNat_le_toNat fun h => ?_
    rcases (move_at hx n).submitting.1 h with ho | hcl | hcl
    · exact ho
    · exact absurd hcl (hN n hle).1
    · exact absurd hcl (hN n hle).2
  -- the number of threads on their way to the queue does not grow, and a task is accepted by one of them
  obtain ⟨M, hc⟩ := exists_constant (f := fun n => tally (fun o : PoolOwn => o.loc.submitting) (x n).own) (n := N)
    fun n hle => by have := hu n; have := hl n hle; omega
  refine ⟨M, fun n hle => ?_⟩
  induction hle with
  | refl => rfl
  | step hle ih =>
    rename_i n
    rcases (move_at hx n).submitting.2 with hs | ⟨hin, ht⟩
    · exact hs.trans ih
    · have h1 := hu n
      have h2 := hc n hle
      have h3 := hc (n + 1) (le_succ_of_le hle)
      rw [hin, ht, h2, h3] at h1
      simp at h1

variable (hsound : ∀ n, Sound wk maxTasks (x n))

include hsound

/-- A finished task stays finished. -/
theorem finished_stays {n m k : ℕ} (h : (x n).shared.finished k = 1) (hle : n ≤ m) : (x m).shared.finished k = 1 := by
  refine lasts (P := fun m => (x m).shared.finished k = 1) (fun j hj => ?_) h hle
  have h1 := (move_at hx j).finished_le k
  have h2 := ((hsound (j + 1)).once k).2
  omega

variable (hfair : Fair x ts) (hh : ∀ n, Held (x n)) (hends : TasksEnd x) (hworker : ∃ w, wk w = true)

include hfair hh hends hworker

/-- From some moment on the queue is empty and no worker is active. -/
theorem comes_to_rest (hc : ∃ N, ∀ n, N ≤ n → (x n).shared.accepted = (x N).shared.accepted) :
    ∃ N, ∀ n, N ≤ n → (x n).shared.tasks = [] ∧ (x n).shared.active = 0 := by
  obtain ⟨N, hN⟩ := hc
  -- all accepted tasks are finished
  obtain ⟨M, hM, hf⟩ := exists_common (R := fun k n => (x n).shared.finished k = 1) (range (x N).shared.accepted) N
    fun k hk => by
      obtain ⟨m, -, hm⟩ := finished_of_accepted hx hfair hh hends hsound hworker (mem_range.mp hk)
      exact ⟨m, fun j hj => finished_stays hx hsound hm hj⟩
  have hnw : ∀ n, M ≤ n → ∀ k, (x n).shared.tasks.countP (fun e => e.number = k) = 0 ∧
      tally (fun o : PoolOwn => o.loc.task == some k) (x n).own = 0 := by
    intro n hle k
    have hcnt := (hsound n).accounted k
    unfold acceptedCount at hcnt
    rw [hN n (le_trans hM hle)] at hcnt
    by_cases hk : k < (x N).shared.accepted
    · rw [hf k (mem_range.mpr hk) n hle, decide_eq_true hk, toNat_true] at hcnt
      omega
    · rw [decide_eq_false hk, toNat_false] at hcnt
      omega
  have ht : ∀ n, M ≤ n → (x n).shared.tasks = [] := by
    intro n hle
    refine List.eq_nil_iff_forall_not_mem.mpr fun e he => ?_
    exact List.countP_eq_zero.mp (hnw n hle e.number).1 e he (decide_eq_true rfl)
  -- what is left of the workers is on its way back
  obtain ⟨L, hL, hid⟩ := exists_common (R := fun t n => ((x n).own t).loc.counted = false) univ M fun t _ => by
    have hs : ∀ n, M ≤ n ∧ ((x n).own t).loc.counted = false → M ≤ n + 1 ∧ ((x (n + 1)).own t).loc.counted = false := by
      rintro n ⟨hle, hn⟩
      refine ⟨le_succ_of_le hle, ?_⟩
      rcases own_or_move hx t n with hsm | ⟨-, hmv⟩
      · rw [hsm]
        exact hn
      · refine eq_false_iff.mpr fun hin => ?_
        rcases hmv.counted_enter hin with ho | hne
        · exact false_ne_true (hn.symm.trans ho)
        · exact hne (ht n hle)
    obtain ⟨m, hle, hm⟩ : ∃ m, M ≤ m ∧ ((x m).own t).loc.counted = false := by
      have hd : ∀ n, ((x n).own t).loc = .wDone → ∃ m, n ≤ m ∧ ((x m).own t).loc.counted = false := fun n h =>
        (comes_next hx hfair (r := .wUnlock) rfl h).imp fun m hm => ⟨hm.1, by rw [hm.2]; rfl⟩
      have hts : ((x M).own t).loc.task = none := by
        refine Option.eq_none_iff_forall_ne_some.mpr fun k hk => ?_
        have h := tally_eq_zero.mp (hnw M (le_refl M) k).2 t
        rw [hk, beq_self_eq_true] at h
        exact false_ne_true h.symm
      cases hloc : ((x M).own t).loc with
      | wRelock => exact exists_later (comes_lock hx hfair hh .again hloc) hd
      | wDone => exact hd M hloc
      | wTaken _ | wCall _ | wRun _ => rw [hloc] at hts; cases hts
      | sLock w | sWork w | sTest w | sUnlock w | sEnd w =>
        rw [hloc] at hts
        obtain rfl : w = none := hts
        exact ⟨M, le_refl M, hloc ▸ rfl⟩
      | _ => exact ⟨M, le_refl M, hloc ▸ rfl⟩
    exact ⟨m, fun k hk => (lasts hs ⟨hle, hm⟩ hk).2⟩
  exact ⟨L, fun n hle => ⟨ht n (le_trans hL hle), (hsound n).active.eq_zero.mpr fun t => hid t (mem_univ t) n hle⟩⟩

end Rest

end ThreadPool

end Libft.Threading
