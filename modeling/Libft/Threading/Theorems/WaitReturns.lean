import Libft.Threading.Lemmas.PoolWaiting

/-!
# The return of `wait`

In a fair run with finitely many calls of `submit`, a call of `wait` returns, and the tasks that were accepted before it are finished
then: if thread safety is disabled, or no task is in `submit` while somebody is in `wait`. With thread safety enabled, `wait` holds the
mutex that `submit` needs. A task that calls `submit` meanwhile waits for `wait`, and `wait` for the task.
-/

namespace Libft.Threading

open Bool PoolLoc Nat Threads List Option

namespace ThreadPool

variable {T : Type} [DecidableEq T]

/-! ## What has been finished -/

/-- What a thread in `wait` has seen: the tasks that were accepted before, finished. -/
def WaitNotes (s : ThreadPool T) (o : PoolOwn) : Prop :=
  o.before ≤ s.accepted ∧ (o.loc = .waUnlock true ∨ o.loc = .waEnd → ∀ k, k < o.before → s.finished k = 1)

section Moves

variable {t : T} {ch : PoolChoice} {s s' : ThreadPool T} {o o' : PoolOwn}

/-- Accepted tasks stay counted. -/
theorem Move.accepted_le (h : Move t ch s o s' o') : s.accepted ≤ s'.accepted := by
  obtain ⟨⟨m, hw⟩, m', hs⟩ := unlock_eq t s
  cases h with
  | unlock _ | quit _ => rw [hw]
  | unlockSafe _ => rw [hs]
  | accept _ _ _ _ => exact le_succ _
  | _ => exact le_refl _

theorem Move.before (h : Move t ch s o s' o') : o'.before = o.before ∨ o'.before = s.accepted := by
  cases h with
  | wait _ _ => exact .inr rfl
  | _ => exact .inl rfl

/-- A wait ends where no task is queued and none is active. -/
theorem Move.waited (h : Move t ch s o s' o') (hend : o'.loc = .waUnlock true ∨ o'.loc = .waEnd) :
    o'.before = o.before ∧ ((o.loc = .waUnlock true ∨ o.loc = .waEnd) ∨ s.tasks = [] ∧ s.active = 0) := by
  obtain ⟨l, err, before⟩ := o
  cases h with
  | pass h =>
    refine ⟨rfl, ?_⟩
    cases h with
    | stay => exact .inl hend
    | look =>
      rcases hend with hend | hend
      · have ht := waUnlock.inj hend
        rw [and_eq_true_iff, List.isEmpty_iff, beq_iff_eq] at ht
        exact .inr ht
      · cases hend
    | gone _ h => cases h <;> rcases hend with hend | hend <;> cases hend
    | _ => rcases hend with hend | hend <;> cases hend
  | unlock h =>
    cases h with
    | waited => exact ⟨rfl, .inl (.inl rfl)⟩
    | _ => rcases hend with hend | hend <;> cases hend
  | lock _ h | lockSafe _ h | unlockSafe h => cases h <;> rcases hend with hend | hend <;> cases hend
  | _ => rcases hend with hend | hend <;> cases hend

/-- A thread polls until it comes to the end of `wait`. -/
theorem Move.polls (h : Move t ch s o s' o') (hw : o.loc.waits = true) (hin : o.loc.insideSafe = true) (hne : o.loc ≠ .waEnd) :
    o'.loc.waits = true ∧ o'.loc.insideSafe = true := by
  obtain ⟨l, err, before⟩ := o
  cases h with
  | pass h =>
    cases h with
    | stay => exact ⟨hw, hin⟩
    | look => exact ⟨rfl, rfl⟩
    | gone _ h => cases h <;> first | exact ⟨rfl, rfl⟩ | exact absurd hw false_ne_true
    | freeWait _ => cases hin
    | _ => cases hw
  | lock _ h | unlock h => cases h <;> first | exact ⟨rfl, rfl⟩ | exact absurd hw false_ne_true
  | lockSafe _ h => cases h <;> cases hin
  | unlockSafe h =>
    cases h with
    | wait => exact absurd rfl hne
    | _ => cases hw
  | take hloc _ | submit hloc _ | nested hloc _ | wait hloc _ | destroy hloc _ | quit hloc | call hloc
    | returns hloc | leave hloc | stop hloc | clean hloc | accept hloc _ _ _ =>
    cases hloc; cases hw

end Moves

/-- What a waiting thread has noted stays right. -/
theorem waitNotes_step [Fintype T] {wk : T → Bool} {maxTasks : ℕ} {c : System T} {i : T × PoolChoice}
    (h : ∀ t, WaitNotes c.shared (c.own t)) (hsn : Sound wk maxTasks c) (hs' : Sound wk maxTasks (step c i)) :
    ∀ t, WaitNotes (step c i).shared ((step c i).own t) := by
  have hmv := turn_move i.1 c.shared (c.own i.1) i.2
  have hs : ∀ k, c.shared.finished k = 1 → (step c i).shared.finished k = 1 := fun k hk =>
    le_antisymm (hs'.once k).2 (hk ▸ hmv.finished_le k)
  refine forall_own_step (P := fun (_ : T) (s : ThreadPool T) (o : PoolOwn) => WaitNotes s o) ⟨?_, fun he k hk => ?_⟩
    fun t _ => ?_
  · rcases hmv.before with hsm | hc
    · rw [hsm]
      exact le_trans (h i.1).1 hmv.accepted_le
    · rw [hc]
      exact hmv.accepted_le
  · obtain ⟨hb, hse⟩ := hmv.waited he
    rw [hb] at hk
    refine hs k ?_
    rcases hse with ho | ⟨ht, ha⟩
    · exact (h i.1).2 ho k hk
    · exact hsn.finished_of_rest ht ha k (lt_of_lt_of_le hk (h i.1).1)
  · exact ⟨le_trans (h t).1 hmv.accepted_le, fun he k hk => hs k ((h t).2 he k hk)⟩

/-! ## The return -/

section Return

variable {x : ℕ → System T} {turns : ℕ → T × PoolChoice} {t : T} {n : ℕ} (hx : ∀ n, x (n + 1) = step (x n) (turns n))
  (hfair : Fair x turns) (hh : ∀ n, Held (x n))

include hx hfair hh

/-- A thread that polls looks at the queue again and again, until it leaves. -/
theorem comes_waTest
    (hp : ∀ m, n ≤ m → ((x m).own t).loc.waits = true ∧ ((x m).own t).loc.insideSafe = true ∧ ((x m).own t).loc ≠ .waEnd) {m : ℕ}
    (hle : n ≤ m) : Comes x t m .waTest := by
  have hwr : ∀ m, ((x m).own t).loc = .waWork → Comes x t m .waTest := fun m => comes_lock hx hfair hh .wait
  obtain ⟨hw, hin, hne⟩ := hp m hle
  cases hl : ((x m).own t).loc with
  | waWork => exact hwr m hl
  | waTest => exact ⟨m, le_refl m, hl⟩
  | waUnlock fin =>
    cases fin with
    | true =>
      obtain ⟨m', hl', hm'⟩ := comes_next hx hfair rfl hl
      exact absurd hm' (hp m' (le_trans hle hl')).2.2
    | false => exact (comes_next hx hfair rfl hl).trans hwr
  | waEnd => exact absurd hl hne
  | _ => rw [hl] at hw hin; first | exact absurd hw false_ne_true | exact absurd hin false_ne_true

variable (hrest : ∃ N, ∀ n, N ≤ n → (x n).shared.tasks = [] ∧ (x n).shared.active = 0)
  (hkept : ∀ n t, ((x n).own t).loc = .waTest → (x n).shared.destroyed = false)

include hrest hkept

/-- A thread that polls comes to the end of `wait`, when the pool comes to rest. -/
theorem comes_waEnd (hw : ((x n).own t).loc.waits = true) (hin : ((x n).own t).loc.insideSafe = true) : Comes x t n .waEnd := by
  by_contra hnot
  have hp : ∀ m, n ≤ m → ((x m).own t).loc.waits = true ∧ ((x m).own t).loc.insideSafe = true ∧ ((x m).own t).loc ≠ .waEnd := by
    intro m hle
    have hl := lasts (P := fun m => n ≤ m ∧ ((x m).own t).loc.waits = true ∧ ((x m).own t).loc.insideSafe = true) (fun k hk => ?_)
      ⟨le_refl n, hw, hin⟩ hle
    · exact ⟨hl.2.1, hl.2.2, fun h => hnot ⟨m, hle, h⟩⟩
    · refine ⟨le_succ_of_le hk.1, ?_⟩
      rcases own_or_move hx t k with hs | ⟨-, hmv⟩
      · rw [hs]
        exact hk.2
      · exact hmv.polls hk.2.1 hk.2.2 fun h => hnot ⟨k, hk.1, h⟩
  obtain ⟨N, hN⟩ := hrest
  obtain ⟨m, hle, hm⟩ := comes_waTest hx hfair hh hp (le_max_left n N)
  obtain ⟨m', hl', hs, a, b, htr⟩ := goes_on hx hfair (t := t) (n := m) (by rw [hm]; rfl)
  obtain ⟨ht, ha⟩ := hN m' (le_trans (le_trans (le_max_right n N) hle) hl')
  have ho : ((x (m' + 1)).own t).loc = .waUnlock true := by
    rw [(goes_at hx htr).2]
    simp [go, hs, hm, ht, ha, hkept m' t (hs ▸ hm), PoolOwn.goto]
  obtain ⟨m'', hl'', hm''⟩ := comes_next hx hfair rfl ho
  exact hnot ⟨m'', by omega, hm''⟩

/-- A thread in `wait` leaves it. -/
theorem leaves_wait (hw : ((x n).own t).loc.waits = true) : ∃ m, n ≤ m ∧ ((x m).own t).loc = .idle := by
  have he : ∀ n u, ((x n).own u).loc.waits = true → ((x n).own u).loc.insideSafe = true → Comes x u n .idle := fun n u h1 h2 =>
    (comes_waEnd hx hfair hh hrest hkept h1 h2).trans fun m hm =>
      comes_next hx hfair rfl hm
  by_cases hin : ((x n).own t).loc.insideSafe = true
  · exact he n t hw hin
  · have hl : ((x n).own t).loc = .waLock := by
      cases hl : ((x n).own t).loc with
      | waLock => rfl
      | _ => rw [hl] at hw hin; first | exact absurd rfl hin | exact absurd hw false_ne_true
    have ht : TakesSafe ((x n).own t).loc .waWork := by rw [hl]; exact .wait
    obtain ⟨m, hle, hm⟩ := lock_safe hx hfair ht fun _ _ k => by
      cases hmt : (x k).shared.threadSafeMutex with
      | none => exact ⟨k, le_refl k, hmt⟩
      | some u =>
        -- the holder is in `submit` or polls, and leaves
        have hi := (hh k).safe u hmt
        refine free_of_leaves (fun n => (hh n).safe) (fun n => (move_at hx n).safe) hmt ?_
        cases hu : ((x k).own u).loc.waits with
        | false =>
          obtain ⟨m, hle, hm, -⟩ := leaves_submit hx hfair hh hi hu
          exact ⟨m, hle, hm⟩
        | true =>
          obtain ⟨m, hle, hm⟩ := he k u hu hi
          exact ⟨m, hle, by rw [hm]; rfl⟩
    have hl' : ((x m).own t).loc = .waWork := by rw [hm]; rfl
    obtain ⟨m', he', hm'⟩ := he m t (hl' ▸ rfl) (hl' ▸ rfl)
    exact ⟨m', le_trans hle he', hm'⟩

end Return

/-- In a run that is fair, in which tasks end when their calls of `submit` return, finitely many calls of `submit` are made, no `wait`
finds the queue destroyed, and the conditions of the two hold: a thread in `wait` comes to its end in this call, and what was accepted
before is finished. -/
theorem run_wait_returns [Fintype T] (worker : T → Bool) (hworker : ∃ w, worker w = true) (maxTasks : ℕ) (threadSafe : Bool)
    (turns : ℕ → T × PoolChoice) (hstores : ∀ n, stores (states worker maxTasks threadSafe turns n) (turns n) = true)
    (hquiet : ∀ n, quiet (states worker maxTasks threadSafe turns n) (turns n))
    (hkept : ∀ n t, ((states worker maxTasks threadSafe turns n).own t).loc = .waTest →
      (states worker maxTasks threadSafe turns n).shared.destroyed = false)
    (hfair : Fair (states worker maxTasks threadSafe turns) turns)
    (hends : TasksEndIfSubmitsReturn (states worker maxTasks threadSafe turns))
    (hfinite : ∃ N, ∀ n, N ≤ n → (turns n).2 ≠ .call .submit ∧ (turns n).2 ≠ .submits) (n : ℕ) (t : T)
    (hwaits : ((states worker maxTasks threadSafe turns n).own t).loc.waits = true) :
    ∃ m, n ≤ m ∧ (∀ k, n ≤ k → k ≤ m → ((states worker maxTasks threadSafe turns k).own t).loc.waits = true) ∧
      ((states worker maxTasks threadSafe turns (m + 1)).own t).loc = .idle ∧
      ∀ k, k < ((states worker maxTasks threadSafe turns n).own t).before →
        (states worker maxTasks threadSafe turns (m + 1)).shared.finished k = 1 := by
  have hx : ∀ n, states worker maxTasks threadSafe turns (n + 1) = step (states worker maxTasks threadSafe turns n) (turns n) :=
    fun _ => rfl
  have hs := sound_states hworker hstores
  have hh : ∀ n, Held (states worker maxTasks threadSafe turns n) := held_states
  have hq : ∀ n, Quiet (states worker maxTasks threadSafe turns n) := by
    refine course_invariant (P := quiet) (fun c i h hP => h.step hP) (fun _ => .inl fun t => ?_) hquiet
    rcases initial_own worker maxTasks threadSafe t with h | h <;> rw [h] <;> rfl
  have hnt : ∀ n t, WaitNotes (states worker maxTasks threadSafe turns n).shared
      ((states worker maxTasks threadSafe turns n).own t) := by
    intro n
    induction n with
    | zero =>
      intro t
      change WaitNotes (initial worker maxTasks threadSafe).shared ((initial worker maxTasks threadSafe).own t)
      rcases initial_own worker maxTasks threadSafe t with h | h <;> rw [h] <;>
        exact ⟨zero_le _, fun _ k hk => absurd hk (not_lt_zero k)⟩
    | succ n ih => exact waitNotes_step ih (hs n) (hs (n + 1))
  have hrest := comes_to_rest hx hs hfair hh (tasksEnd hx hfair hh hq hends) hworker (accepted_constant hx hfinite)
  obtain ⟨m, hle, hin, hn⟩ := exists_first_exit (P := fun m => ((states worker maxTasks threadSafe turns m).own t).loc.waits = true)
    hwaits <| by
      obtain ⟨m, hle, hm⟩ := leaves_wait hx hfair hh hrest hkept hwaits
      exact ⟨m, hle, by rw [hm]; exact false_ne_true⟩
  -- throughout the call the thread remembers what was accepted before
  have hb : ∀ k, n ≤ k → k ≤ m →
      ((states worker maxTasks threadSafe turns k).own t).before = ((states worker maxTasks threadSafe turns n).own t).before := by
    intro k hk
    induction hk with
    | refl => exact fun _ => rfl
    | step hk ih =>
      rename_i k
      intro hkm
      rcases own_or_move hx t k with hsm | ⟨-, hmv⟩
      · exact (congrArg PoolOwn.before hsm).trans (ih (le_of_succ_le hkm))
      · rcases hmv.waits (hin _ (le_succ_of_le hk) hkm) with ⟨-, hsm⟩ | ⟨hid, -⟩
        · exact hsm.trans (ih (le_of_succ_le hkm))
        · have hw := hin k hk (le_of_succ_le hkm)
          rw [hid] at hw
          cases hw
  rcases own_or_move hx t m with hsm | ⟨-, hmv⟩
  · exact absurd (hsm ▸ hin m hle (le_refl m)) hn
  · obtain ⟨he, hid⟩ := hmv.waits_exit (hin m hle (le_refl m)) (eq_false_iff.mpr hn)
    refine ⟨m, hle, hin, hid, fun k hk => finished_stays hx hs ?_ (le_succ m)⟩
    exact (hnt m t).2 (.inr he) k (hb m hle (le_refl m) ▸ hk)

/-! ## A wait for one task -/

/-- Thread `b` hands in one task and waits, worker `a` executes it. -/
def waitTurns : List (Name × PoolChoice) :=
  flatten [[(.b, .call .submit)], replicate 5 (.b, .go true true), [(.b, .call .wait), (.b, .go true true)],
    replicate 4 (.a, .go true true), [(.a, .returns)], replicate 3 (.a, .go true true), replicate 4 (.b, .go true true)]

/-- One task is handed in and waited for, then only rounds follow. -/
def waitOne : ℕ → Name × PoolChoice := cycle waitTurns roundTurns (.a, .go true true)

theorem waitOne_round : states onlyA 0 true waitOne (waitTurns.length + roundTurns.length) =
    states onlyA 0 true waitOne waitTurns.length := by
  refine Threads.ext rfl (funext ?_)
  decide +kernel

/-- After the call of `wait`, nobody calls anything. -/
theorem waitOne_go (n : ℕ) (hn : 7 ≤ n) : (waitOne n).2 = .returns ∨ (waitOne n).2 = .go true true :=
  cycle_from (P := fun i : Name × PoolChoice => i.2 = .returns ∨ i.2 = .go true true) (by decide) hn

/-- The wait returns. -/
theorem run_wait_returns_one : ((states onlyA 0 true waitOne 7).own .b).loc.waits = true ∧
    ((states onlyA 0 true waitOne 7).own .b).before = 1 ∧
    ∃ m, 7 ≤ m ∧ (∀ k, 7 ≤ k → k ≤ m → ((states onlyA 0 true waitOne k).own .b).loc.waits = true) ∧
      ((states onlyA 0 true waitOne (m + 1)).own .b).loc = .idle ∧
      ∀ k, k < ((states onlyA 0 true waitOne 7).own .b).before → (states onlyA 0 true waitOne (m + 1)).shared.finished k = 1 := by
  have hw : ((states onlyA 0 true waitOne 7).own .b).loc.waits = true := by decide +kernel
  have hrest : ∀ t, Recurs fun m => ((states onlyA 0 true waitOne m).own t).loc = .wTest ∨
      ((states onlyA 0 true waitOne m).own t).loc = .idle := by
    intro t
    refine recurs_of_cycle waitOne_round (j := 1) (by decide) (I := fun c => (c.own t).loc = .wTest ∨ (c.own t).loc = .idle) ?_
    revert t
    decide +kernel
  refine ⟨hw, by decide +kernel, run_wait_returns onlyA ⟨.a, rfl⟩ 0 true waitOne ?_ (fun n => ?_) (fun n _ _ => ?_) ?_ ?_ ?_ 7 .b hw⟩
  · refine fun n => stores_of_ne fun b => ?_
    refine cycle_from (P := fun i : Name × PoolChoice => i.2 ≠ .go false b) (k := 0) ?_ (zero_le n)
    revert b
    decide
  · have hb : ∀ n, n < 6 → (waitOne n).2 ≠ .submits ∧ (waitOne n).2 ≠ .call .wait := by decide
    have hc : ∀ t, ((states onlyA 0 true waitOne 6).own t).loc.nested = false := by decide +kernel
    rcases lt_trichotomy n 6 with hlt | rfl | hgt
    · exact quiet_of_ne (hb n hlt).1 (hb n hlt).2
    · exact fun _ => hc
    · refine quiet_of_ne ?_ ?_ <;> rcases waitOne_go n hgt with h | h <;> rw [h] <;> decide
  · -- a pool that was destroyed would stay so, and at the beginning of every round it is not
    by_contra hd
    obtain ⟨m, hle, hm⟩ := recurs_of_cycle waitOne_round (j := 0) (by decide) (I := fun c => c.shared.destroyed = false)
      (by decide +kernel) n
    exact false_ne_true (hm.symm.trans (destroyed_stays (fun _ => rfl) (eq_true_of_ne_false hd) hle))
  · exact fair_of_rests (goes_roundTurns waitTurns) hrest
  · exact fun t n k h _ => tasksEnd_of_rests hrest t n k h
  · refine ⟨7, fun n hn => ?_⟩
    rcases waitOne_go n hn with h | h <;> rw [h] <;> exact ⟨by decide, by decide⟩

/-! ## A task that submits -/

/-- Thread `b` hands in one task. Worker `a` runs it, `b` begins to wait, and the task calls `submit`. -/
def stuckTurns : List (Name × PoolChoice) :=
  flatten [[(.b, .call .submit)], replicate 5 (.b, .go true true), replicate 4 (.a, .go true true),
    [(.b, .call .wait), (.b, .go true true), (.a, .submits)]]

/-- Thread `b` polls, and the others do not come on. -/
def pollTurns : List (Name × PoolChoice) :=
  flatten [replicate 3 (.b, .go true true), [(.a, .go true true), (.c, .go true true)]]

/-- A task submits while `b` waits, and from then on `b` polls. -/
def stuck : ℕ → Name × PoolChoice := cycle stuckTurns pollTurns (.a, .go true true)

theorem stuck_round : states onlyA 0 true stuck (stuckTurns.length + pollTurns.length) = states onlyA 0 true stuck stuckTurns.length := by
  refine Threads.ext rfl (funext ?_)
  decide +kernel

/-- From then on `b` has the mutex that `a` waits for. -/
theorem stuck_stays (m : ℕ) (hm : 13 ≤ m) : (states onlyA 0 true stuck m).shared.threadSafeMutex = some .b ∧
    ((states onlyA 0 true stuck m).own .a).loc = .sLock (some 0) ∧ ((states onlyA 0 true stuck m).own .b).loc.waits = true ∧
    ((states onlyA 0 true stuck m).own .c).loc = .idle := by
  obtain ⟨k, rfl⟩ := Nat.exists_eq_add_of_le hm
  have hr : states onlyA 0 true stuck (13 + k) = states onlyA 0 true stuck (13 + k % 5) := course_cycle stuck_round k
  have hlt : k % 5 < 5 := mod_lt k (by decide)
  rw [hr]
  -- the five turns of the round, one by one
  generalize k % 5 = j at hlt ⊢
  revert j
  decide +kernel

/-- The wait never returns. -/
theorem run_wait_stuck : (∀ n, stores (states onlyA 0 true stuck n) (stuck n) = true) ∧ Fair (states onlyA 0 true stuck) stuck ∧
    TasksEndIfSubmitsReturn (states onlyA 0 true stuck) ∧
    (∃ N, ∀ n, N ≤ n → (stuck n).2 ≠ .call .submit ∧ (stuck n).2 ≠ .submits) ∧
    ∀ m, 13 ≤ m → ((states onlyA 0 true stuck m).own .b).loc.waits = true := by
  have hl : ∀ t, Recurs fun m => ((states onlyA 0 true stuck m).own t).loc ∈ [waTest, .sLock (some 0), .idle] := by
    intro t
    refine recurs_of_cycle stuck_round (j := 1) (by decide) (I := fun c => (c.own t).loc ∈ [waTest, .sLock (some 0), .idle]) ?_
    revert t
    decide +kernel
  refine ⟨fun n => stores_of_ne fun b => ?_, ⟨fun t => ?_, fun t n l h _ => ?_, fun t n l h hf => ?_⟩, fun t n k h hr => ?_,
    ⟨13, fun n hn => ?_⟩, fun m hm => (stuck_stays m hm).2.2.1⟩
  · refine cycle_from (P := fun i : Name × PoolChoice => i.2 ≠ .go false b) (k := 0) ?_ (zero_le n)
    revert b
    decide
  · cases t with
    | a => exact fun n => (recurs_cycle (j := 3) (by decide) n).imp fun m h => ⟨h.1, true, true, h.2⟩
    | b => exact fun n => (recurs_cycle (j := 0) (by decide) n).imp fun m h => ⟨h.1, true, true, h.2⟩
    | c => exact fun n => (recurs_cycle (j := 4) (by decide) n).imp fun m h => ⟨h.1, true, true, h.2⟩
  · obtain ⟨m, hle, hm⟩ := hl t n
    refine ⟨m, hle, fun heq => ?_⟩
    rw [heq] at hm
    generalize ((states onlyA 0 true stuck n).own t).loc = l' at h hm
    cases h <;> simp at hm
  · -- the mutex for thread safety is not free any more
    obtain ⟨m, hle, hm⟩ := hf 13
    exact absurd (hm.symm.trans (stuck_stays m hle).1) (some_ne_none _).symm
  · cases t with
    | a =>
      obtain ⟨m, hle, hm⟩ := hr (max n 13) (le_max_left n 13)
      rw [(stuck_stays m (le_trans (le_max_right n 13) hle)).2.1] at hm
      cases hm
    | b =>
      refine ⟨max n 13, le_max_left n 13, ?_⟩
      rw [within_of_waits (stuck_stays _ (le_max_right n 13)).2.2.1]
      exact (some_ne_none k).symm
    | c =>
      refine ⟨max n 13, le_max_left n 13, ?_⟩
      rw [(stuck_stays _ (le_max_right n 13)).2.2.2]
      exact (some_ne_none k).symm
  · have hgo : (stuck n).2 = .go true true := cycle_from (P := fun i : Name × PoolChoice => i.2 = .go true true) (by decide) hn
    rw [hgo]
    exact ⟨by decide, by decide⟩

end ThreadPool

end Libft.Threading
