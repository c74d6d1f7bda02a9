import Libft.Threading.ThreadPool

/-!
# What a turn does to the pool

`Move` says once what a turn can do: pass on (`Passes`), take or give back one of the two mutexes, or change the queue and the counters.
What a location says about a task in the worker's hands (`PoolLoc.task`, `PoolLoc.within`) is kept by all but the moves that are about
tasks, so that every accepted task is in one place: in the queue, in the hands of a worker, or finished (`Accounted`).
-/

namespace Libft.Threading

open Threads Bool List PoolLoc PoolOwn Nat Function

namespace PoolLoc

/-- The task whose function the thread is in. -/
def within : PoolLoc → Option ℕ
  | wRun k => some k
  | sLock w | sWork w | sTest w | sUnlock w | sEnd w => w
  | _ => none

/-- The task that the thread has taken and not finished. -/
def task : PoolLoc → Option ℕ
  | wTaken e | wCall e => some e.number
  | l => l.within

/-- A worker that `active` counts. -/
def counted : PoolLoc → Bool
  | wTaken _ | wCall _ | wRelock | wDone => true
  | l => l.within.isSome

/-- A worker that has not returned. -/
def works : PoolLoc → Bool
  | wLock | wTest | wQuit | wSleep | wUnlock => true
  | l => l.counted

/-- Where the work mutex is held. -/
def insideWork : PoolLoc → Bool
  | wTest | wQuit | wSleep | wTaken _ | wDone | wUnlock | sTest _ | sUnlock _ | waTest | waUnlock _ | dStop | dUnlock => true
  | _ => false

/-- Where the mutex for thread safety is held. -/
def insideSafe : PoolLoc → Bool
  | sWork _ | sTest _ | sUnlock _ | sEnd _ | waWork | waTest | waUnlock _ | waEnd => true
  | _ => false

/-- The two places of a worker with a wrapper it has not called. -/
def wrapper : PoolLoc → Option PoolTask
  | wTaken e | wCall e => some e
  | _ => none

/-- Two places are the same to the pool: what the thread has in its hands, and whether it is counted. -/
structure SameRole (l l' : PoolLoc) : Prop where
  within : l'.within = l.within
  task : l'.task = l.task
  counted : l'.counted = l.counted
  works : l'.works = l.works

variable {l : PoolLoc}

/-- A thread within a task has the task. -/
theorem task_eq_of_within {k : ℕ} (h : l.within = some k) : l.task = some k := by
  cases l <;> first | exact h | cases h

/-- A thread with a task counts as active. -/
theorem counted_of_task {k : ℕ} (h : l.task = some k) : l.counted = true := by
  cases l <;> first | rfl | exact Option.isSome_iff_exists.mpr ⟨k, h⟩

theorem works_of_counted (h : l.counted = true) : l.works = true := by
  cases l <;> first | rfl | exact h

end PoolLoc

namespace ThreadPool

/-- A turn that takes the work mutex. -/
inductive TakesWork : PoolLoc → PoolLoc → Prop
  | worker : TakesWork .wLock .wTest
  | again : TakesWork .wRelock .wDone
  | submit (w : Option ℕ) : TakesWork (.sWork w) (.sTest w)
  | wait : TakesWork .waWork .waTest
  | destroy : TakesWork .dLock .dStop

/-- A turn that gives the work mutex back. -/
inductive GivesWork : PoolLoc → PoolLoc → Prop
  | sleep : GivesWork .wSleep .wLock
  | taken (e : PoolTask) : GivesWork (.wTaken e) (.wCall e)
  | next : GivesWork .wUnlock .wLock
  | submit (w : Option ℕ) : GivesWork (.sUnlock w) (.sEnd w)
  | waited : GivesWork (.waUnlock true) .waEnd
  | wait : GivesWork (.waUnlock false) .waWork
  | destroy : GivesWork .dUnlock .dJoin

/-- Turns that take the outer mutex. -/
inductive TakesSafe : PoolLoc → PoolLoc → Prop
  | submit (w : Option ℕ) : TakesSafe (.sLock w) (.sWork w)
  | wait : TakesSafe .waLock .waWork

/-- Turns that give it back. -/
inductive GivesSafe : PoolLoc → PoolLoc → Prop
  | submit : GivesSafe (.sEnd none) .idle
  | nested (k : ℕ) : GivesSafe (.sEnd (some k)) (.wRun k)
  | wait : GivesSafe .waEnd .idle

variable {T : Type}

/-- A turn that changes nothing but the place of its thread. -/
inductive Passes (s : ThreadPool T) : PoolLoc → PoolLoc → Prop
  | stay (l : PoolLoc) : Passes s l l
  | sleep : s.tasks = [] → s.stop = false → Passes s .wTest .wSleep
  | quit : s.tasks = [] → s.stop = true → Passes s .wTest .wQuit
  | skip (e : PoolTask) : e.stored = false → Passes s (.wCall e) .wRelock
  | refuse (w : Option ℕ) : Passes s (.sTest w) (.sUnlock w)
  | freeSubmit (w : Option ℕ) : s.threadSafe = false → Passes s (.sLock w) (.sWork w)
  | freeWait : s.threadSafe = false → Passes s .waLock .waWork
  | look : Passes s .waTest (.waUnlock (s.tasks.isEmpty && s.active == 0))
  | join : s.alive = 0 → Passes s .dJoin .dClean
  | gone {l l' : PoolLoc} : s.destroyed = true → TakesWork l l' → Passes s l l'

variable {s : ThreadPool T}

variable {l l' : PoolLoc}

theorem TakesWork.sameRole (h : TakesWork l l') : SameRole l l' := by
  cases h <;> exact ⟨rfl, rfl, rfl, rfl⟩

theorem GivesWork.sameRole (h : GivesWork l l') : SameRole l l' := by
  cases h <;> exact ⟨rfl, rfl, rfl, rfl⟩

theorem TakesSafe.sameRole (h : TakesSafe l l') : SameRole l l' := by
  cases h <;> exact ⟨rfl, rfl, rfl, rfl⟩

theorem GivesSafe.sameRole (h : GivesSafe l l') : SameRole l l' := by
  cases h <;> exact ⟨rfl, rfl, rfl, rfl⟩

/-- Only the call of an empty wrapper loses a task. -/
theorem Passes.sameRole (h : Passes s l l') : SameRole l l' ∨ ∃ e, l = .wCall e ∧ l' = .wRelock ∧ e.stored = false := by
  cases h with
  | skip e hs => exact .inr ⟨e, rfl, rfl, hs⟩
  | gone _ h => exact .inl h.sameRole
  | _ => exact .inl ⟨rfl, rfl, rfl, rfl⟩

variable [DecidableEq T]

/-- What a turn does. -/
inductive Move (t : T) (ch : PoolChoice) (s : ThreadPool T) (o : PoolOwn) : ThreadPool T → PoolOwn → Prop
  | pass {l : PoolLoc} {e : SubmitError} : Passes s o.loc l → Move t ch s o s { o with loc := l, error := e }
  | lock {l : PoolLoc} : s.workMutex = none → TakesWork o.loc l → Move t ch s o { s with workMutex := some t } (o.goto l)
  | unlock {l : PoolLoc} : GivesWork o.loc l → Move t ch s o (s.unlockWork t) (o.goto l)
  | lockSafe {l : PoolLoc} : s.threadSafeMutex = none → TakesSafe o.loc l →
      Move t ch s o { s with threadSafeMutex := some t } (o.goto l)
  | unlockSafe {l : PoolLoc} : GivesSafe o.loc l → Move t ch s o (s.unlockInternal t) (o.goto l)
  -- the calls
  | submit : o.loc = .idle → ch = .call .submit → Move t ch s o s (o.goto (.sLock none))
  | nested {k : ℕ} : o.loc = .wRun k → ch = .submits → Move t ch s o s (o.goto (.sLock (some k)))
  | wait : o.loc = .idle → ch = .call .wait → Move t ch s o s { o with loc := .waLock, before := s.accepted }
  | destroy : o.loc = .idle → ch = .call .destroy → Move t ch s o { s with destroying := true } (o.goto .dLock)
  -- the worker
  | take {e : PoolTask} {rest : List PoolTask} : o.loc = .wTest → s.tasks = e :: rest →
      Move t ch s o { s with tasks := rest, active := s.active + 1 } (o.goto (.wTaken e))
  | quit : o.loc = .wQuit → Move t ch s o { s.unlockWork t with alive := s.alive - 1 } (o.goto .done)
  | call {e : PoolTask} : o.loc = .wCall e → Move t ch s o { s with started := bump s.started e.number } (o.goto (.wRun e.number))
  | returns {k : ℕ} : o.loc = .wRun k → Move t ch s o { s with finished := bump s.finished k } (o.goto .wRelock)
  | leave : o.loc = .wDone → Move t ch s o { s with active := s.active - 1 } (o.goto .wUnlock)
  -- the callers
  | accept {w : Option ℕ} {stores : Bool} : o.loc = .sTest w → ch = .go stores true → s.stop = false →
      ¬(s.maxTasks ≠ 0 ∧ s.maxTasks ≤ s.tasks.length) →
      Move t ch s o { s with tasks := s.tasks ++ [⟨s.accepted, stores⟩], accepted := s.accepted + 1 }
        { o with loc := .sUnlock w, error := .success }
  | stop : o.loc = .dStop → Move t ch s o { s with stop := true } (o.goto .dUnlock)
  | clean : o.loc = .dClean → Move t ch s o { s with tasks := [], destroyed := true } (o.goto .idle)

variable {t : T} {ch : PoolChoice} {s' : ThreadPool T} {o o' : PoolOwn}

theorem Move.stay : Move t ch s o s o := .pass (l := o.loc) (e := o.error) (.stay _)

/-- Taking the work mutex is a move. -/
theorem lockWork_move (h : TakesWork o.loc l) : Move t ch s o (s.lockWork t o l).1 (s.lockWork t o l).2 := by
  unfold lockWork
  split
  · exact .pass (e := o.error) (.gone ‹_› h)
  · split
    · exact .lock ‹_› h
    · exact .stay

/-- Taking the outer mutex is a move. -/
theorem lockInternal_move (h : TakesSafe o.loc l) : Move t ch s o (s.lockInternal t o l).1 (s.lockInternal t o l).2 := by
  unfold lockInternal
  split
  · split
    · exact .lockSafe ‹_› h
    · exact .stay
  · rename_i hf
    refine .pass (e := o.error) ?_
    generalize o.loc = l' at h
    cases h with
    | submit w => exact .freeSubmit w (eq_false_of_ne_true hf)
    | wait => exact .freeWait (eq_false_of_ne_true hf)

/-- Starting a call is a move. -/
theorem begin_move (c : PoolCall) (hid : o.loc = .idle) : Move t (.call c) s o (s.begin o c).1 (s.begin o c).2 := by
  cases c with
  | submit =>
    dsimp only [begin]
    split
    · exact .stay
    · exact .submit hid rfl
  | wait =>
    dsimp only [begin]
    split
    · exact .stay
    · exact .wait hid rfl
  | destroy =>
    dsimp only [begin]
    split
    · exact .stay
    · exact .destroy hid rfl

/-- Going on is a move. -/
theorem go_move (t : T) (s : ThreadPool T) (o : PoolOwn) (stores adds : Bool) :
    Move t (.go stores adds) s o (s.go t o stores adds).1 (s.go t o stores adds).2 := by
  have hp : ∀ {l l' : PoolLoc}, o.loc = l → Passes s l l' → Move t (.go stores adds) s o s (o.goto l') :=
    fun hl h => .pass (e := o.error) (hl ▸ h)
  unfold go
  cases hl : o.loc with
  | idle | done | wRun => exact .stay
  | wLock => exact lockWork_move (hl ▸ .worker)
  | wTest =>
    dsimp only
    split
    · rename_i hn
      split
      · exact hp hl (.quit hn ‹_›)
      · exact hp hl (.sleep hn (eq_false_of_ne_true ‹_›))
    · exact .take hl ‹_›
  | wQuit => exact .quit hl
  | wSleep => exact .unlock (hl ▸ .sleep)
  | wTaken e => exact .unlock (hl ▸ .taken e)
  | wCall e =>
    dsimp only
    split
    · exact .call hl
    · exact hp hl (.skip e (eq_false_of_ne_true ‹_›))
  | wRelock => exact lockWork_move (hl ▸ .again)
  | wDone => exact .leave hl
  | wUnlock => exact .unlock (hl ▸ .next)
  | sLock w => exact lockInternal_move (hl ▸ .submit w)
  | sWork w => exact lockWork_move (hl ▸ .submit w)
  | sTest w =>
    dsimp only [enqueue]
    split
    · exact .pass (hl ▸ .refuse w)
    · split
      · exact .pass (hl ▸ .refuse w)
      · split
        · rename_i hs hf ha
          exact .accept hl (ha ▸ rfl) (eq_false_of_ne_true hs) hf
        · exact .pass (hl ▸ .refuse w)
  | sUnlock w => exact .unlock (hl ▸ .submit w)
  | sEnd w =>
    cases w with
    | none => exact .unlockSafe (hl ▸ .submit)
    | some k => exact .unlockSafe (hl ▸ .nested k)
  | waLock => exact lockInternal_move (hl ▸ .wait)
  | waWork => exact lockWork_move (hl ▸ .wait)
  | waTest =>
    dsimp only
    split
    · exact .stay
    · exact hp hl .look
  | waUnlock fin =>
    cases fin with
    | true => exact .unlock (hl ▸ .waited)
    | false => exact .unlock (hl ▸ .wait)
  | waEnd => exact .unlockSafe (hl ▸ .wait)
  | dLock => exact lockWork_move (hl ▸ .destroy)
  | dStop => exact .stop hl
  | dUnlock => exact .unlock (hl ▸ .destroy)
  | dJoin =>
    dsimp only
    split
    · exact hp hl (.join ‹_›)
    · exact .stay
  | dClean => exact .clean hl

/-- Every turn is a move. -/
theorem turn_move (t : T) (s : ThreadPool T) (o : PoolOwn) (ch : PoolChoice) : Move t ch s o (s.turn t o ch).1 (s.turn t o ch).2 := by
  cases ch with
  | call c =>
    dsimp only [turn]
    split
    · exact begin_move c ‹_›
    · exact .stay
  | submits =>
    dsimp only [turn]
    split
    · exact .nested ‹_› rfl
    · exact .stay
  | returns =>
    dsimp only [turn]
    split
    · exact .returns ‹_›
    · exact .stay
  | go stores adds => exact go_move t s o stores adds

@[simp] theorem bump_self (f : ℕ → ℕ) (k : ℕ) : bump f k k = f k + 1 := update_self ..

/-- Counting a task counts no other. -/
theorem bump_apply (f : ℕ → ℕ) (k i : ℕ) : bump f k i = f i + (some k == some i).toNat := by
  by_cases h : i = k
  · simp [h]
  · simp [bump, h, Ne.symm h]

/-- To give a mutex back changes the mutex only. -/
theorem unlock_eq (t : T) (s : ThreadPool T) :
    (∃ m, s.unlockWork t = { s with workMutex := m }) ∧ ∃ m, s.unlockInternal t = { s with threadSafeMutex := m } := by
  unfold unlockWork unlockInternal
  constructor
  · split
    · exact ⟨none, rfl⟩
    · exact ⟨s.workMutex, rfl⟩
  · split
    · exact ⟨none, rfl⟩
    · exact ⟨s.threadSafeMutex, rfl⟩

/-! ## What the places say -/

/-- A worker that returns has seen `stop` and an empty queue, and the cleaning waits for all workers. -/
def Notes (s : ThreadPool T) : PoolLoc → Prop
  | .wQuit | .done => s.stop = true ∧ s.tasks = []
  | .dClean => s.alive = 0
  | _ => True

/-- Once the pool is stopped and the queue is empty, they stay so; and no worker comes back. -/
theorem Move.ended (h : Move t ch s o s' o') :
    (s.stop = true ∧ s.tasks = [] → s'.stop = true ∧ s'.tasks = []) ∧ (s.alive = 0 → s'.alive = 0) := by
  obtain ⟨⟨m, hw⟩, m', hs⟩ := unlock_eq t s
  cases h with
  | unlock _ => rw [hw]; exact ⟨id, id⟩
  | unlockSafe _ => rw [hs]; exact ⟨id, id⟩
  | quit _ =>
    rw [hw]
    exact ⟨id, fun h => by simp [h]⟩
  | take _ hc => exact ⟨fun h => absurd (hc.symm.trans h.2) (cons_ne_nil _ _), id⟩
  | accept _ _ hst _ => exact ⟨fun h => absurd (hst.symm.trans h.1) false_ne_true, id⟩
  | stop _ => exact ⟨fun h => ⟨rfl, h.2⟩, id⟩
  | clean _ => exact ⟨fun h => ⟨h.1, rfl⟩, id⟩
  | _ => exact ⟨id, id⟩

/-- What a thread has noted stays right in the moves of others. -/
theorem Move.notes_other (h : Move t ch s o s' o') (hnt : Notes s l) : Notes s' l := by
  cases l with
  | wQuit | done => exact h.ended.1 hnt
  | dClean => exact h.ended.2 hnt
  | _ => trivial

/-- What a place says is so when the thread gets there. -/
theorem Move.notes (h : Move t ch s o s' o') (hnt : Notes s o.loc) : Notes s' o'.loc := by
  have hk := h.notes_other hnt
  have he := h.ended
  obtain ⟨l, err, before⟩ := o
  cases h with
  | pass h =>
    cases h with
    | stay => exact hk
    | quit hn hs => exact ⟨hs, hn⟩
    | join hjn => exact hjn
    | gone _ h => cases h <;> trivial
    | _ => trivial
  | quit hl =>
    cases hl
    exact he.1 hnt
  | lock _ h | unlock h | lockSafe _ h | unlockSafe h => cases h <;> trivial
  | _ => trivial

/-! ## Counting -/

/-- The places of a task: how often it is in the queue, in the hands of this thread, and finished. -/
def placed (s : ThreadPool T) (o : PoolOwn) (i : ℕ) : ℕ :=
  s.tasks.countP (fun e => e.number = i) + (o.loc.task == some i).toNat + s.finished i

/-- 1 for a task that was accepted. -/
def acceptedCount (s : ThreadPool T) (i : ℕ) : ℕ := (decide (i < s.accepted)).toNat

section

variable (h : Move t ch s o s' o')

include h

/-- A turn moves a task from one place to the next, or accepts it into the queue. -/
theorem Move.placed (hs : ∀ e, o.loc.wrapper = some e → e.stored = true)
    (hc : o.loc = .dClean → s.tasks = []) (i : ℕ) : placed s' o' i + acceptedCount s i = placed s o i + acceptedCount s' i := by
  obtain ⟨⟨m, hw⟩, m', hsf⟩ := unlock_eq t s
  have hsm : ∀ o' : PoolOwn, o.loc.SameRole o'.loc → ThreadPool.placed s o' i = ThreadPool.placed s o i := by
    intro o' h
    unfold ThreadPool.placed
    rw [h.task]
  cases h with
  | pass h =>
    rcases h.sameRole with hr | ⟨e, hl, -, hn⟩
    · rw [hsm { o with loc := _, error := _ } hr]
    · rw [hl] at hs
      exact absurd (hn.symm.trans (hs e rfl)) false_ne_true
  | lock _ h | lockSafe _ h => exact congrArg (· + _) (hsm (o.goto _) h.sameRole)
  | unlock h =>
    rw [hw]
    exact congrArg (· + _) (hsm (o.goto _) h.sameRole)
  | unlockSafe h =>
    rw [hsf]
    exact congrArg (· + _) (hsm (o.goto _) h.sameRole)
  | take hl hcn =>
    rename_i e tl
    simp only [ThreadPool.placed, acceptedCount, hl, hcn, countP_cons, goto, task, within]
    by_cases hi : e.number = i <;> simp [hi]
  | quit hl =>
    rw [hw]
    simp [ThreadPool.placed, acceptedCount, hl, goto, task, within]
  | returns hl =>
    simp [ThreadPool.placed, acceptedCount, hl, goto, task, within, bump_apply]
    omega
  | accept hl _ _ _ =>
    simp only [ThreadPool.placed, acceptedCount, hl, task, within, countP_append, countP_singleton]
    by_cases hi : s.accepted = i
    · subst hi
      simp
      omega
    · have hlt : i < s.accepted + 1 ↔ i < s.accepted := by omega
      simp [hi, hlt]
  | clean hl =>
    simp [ThreadPool.placed, acceptedCount, hl, hc hl, goto, task, within]
  | submit hl _ | nested hl _ | wait hl _ | destroy hl _ | call hl | leave hl | stop hl =>
    simp [ThreadPool.placed, acceptedCount, hl, goto, task, within]

/-- A task is started by the thread that is then in its function, and finished by it. -/
theorem Move.startedCount (i : ℕ) :
    (o'.loc.within == some i).toNat + s'.finished i + s.started i =
      (o.loc.within == some i).toNat + s.finished i + s'.started i := by
  obtain ⟨⟨m, hw⟩, m', hs⟩ := unlock_eq t s
  cases h with
  | pass h =>
    rcases h.sameRole with hr | ⟨e, hl, rfl, -⟩
    · rw [hr.within]
    · rw [hl]
      rfl
  | lock _ h | lockSafe _ h => exact congrArg (fun w => (w == some i).toNat + _ + _) h.sameRole.within
  | unlock h =>
    rw [hw]
    exact congrArg (fun w => (w == some i).toNat + _ + _) h.sameRole.within
  | unlockSafe h =>
    rw [hs]
    exact congrArg (fun w => (w == some i).toNat + _ + _) h.sameRole.within
  | call hl | returns hl =>
    simp [hl, goto, within, bump_apply]
    omega
  | quit hl =>
    rw [hw, hl]
    rfl
  | accept hl _ _ _ | take hl _ | submit hl _ | nested hl _ | wait hl _ | destroy hl _ | leave hl
    | stop hl | clean hl => rw [hl]; rfl

/-- A thread leaves a function by its return. -/
theorem Move.within_exit {k : ℕ} (hin : o.loc.within = some k) (ho : o'.loc.within ≠ some k) :
    o'.loc = .wRelock ∧ s'.finished = bump s.finished k := by
  obtain ⟨l, err, before⟩ := o
  cases h with
  | pass h =>
    rcases h.sameRole with hr | ⟨e, rfl, -, -⟩
    · exact absurd (hr.within.trans hin) ho
    · cases hin
  | lock _ h | lockSafe _ h | unlock h | unlockSafe h => exact absurd (h.sameRole.within.trans hin) ho
  | returns hl =>
    cases hl
    cases hin
    exact ⟨rfl, rfl⟩
  | accept hl _ _ _ | nested hl _ =>
    cases hl
    exact absurd hin ho
  | take hl _ | submit hl _ | wait hl _ | destroy hl _ | quit hl | call hl | leave hl | stop hl
    | clean hl =>
    cases hl
    cases hin

/-- Finished tasks stay counted. -/
theorem Move.finished_le (i : ℕ) : s.finished i ≤ s'.finished i := by
  obtain ⟨⟨m, hw⟩, m', hs⟩ := unlock_eq t s
  cases h with
  | unlock _ | quit _ => rw [hw]
  | unlockSafe _ => rw [hs]
  | returns _ =>
    dsimp only
    rw [bump_apply]
    exact Nat.le_add_right ..
  | _ => exact le_refl _

/-- The two counters of workers follow the places. -/
theorem Move.counters (ha : o.loc.counted = true → 0 < s.active) (hal : o.loc.works = true → 0 < s.alive) :
    s'.active + o.loc.counted.toNat = s.active + o'.loc.counted.toNat ∧
      s'.alive + o.loc.works.toNat = s.alive + o'.loc.works.toNat := by
  obtain ⟨⟨m, hw⟩, m', hsf⟩ := unlock_eq t s
  have hs : ∀ {l : PoolLoc}, o.loc.SameRole l → s.active + o.loc.counted.toNat = s.active + l.counted.toNat ∧
      s.alive + o.loc.works.toNat = s.alive + l.works.toNat := fun h => by rw [h.counted, h.works]; exact ⟨rfl, rfl⟩
  cases h with
  | pass h =>
    rcases h.sameRole with hr | ⟨e, hl, rfl, -⟩
    · exact hs hr
    · rw [hl]
      exact ⟨rfl, rfl⟩
  | lock _ h | lockSafe _ h => exact hs h.sameRole
  | unlock h => rw [hw]; exact hs h.sameRole
  | unlockSafe h => rw [hsf]; exact hs h.sameRole
  | take hl _ | submit hl _ | nested hl _ | wait hl _ | destroy hl _ | call hl | returns hl
    | stop hl | clean hl => rw [hl]; exact ⟨rfl, rfl⟩
  | quit hl =>
    rw [hl] at hal ⊢
    rw [hw]
    exact ⟨rfl, Nat.sub_add_cancel (hal rfl)⟩
  | leave hl =>
    rw [hl] at ha ⊢
    exact ⟨Nat.sub_add_cancel (ha rfl), rfl⟩
  | accept hl _ _ _ => rw [hl]; cases ‹Option ℕ› <;> exact ⟨rfl, rfl⟩

/-- Tasks come to the queue through `submit`, not after the stop and not beyond the maximum. -/
theorem Move.queue :
    (∀ e ∈ s'.tasks, e ∈ s.tasks ∨ ∃ w, o.loc = .sTest w ∧ ch = .go e.stored true) ∧
    (s.stop = true → s'.stop = true ∧ s'.accepted = s.accepted) ∧
    s'.maxTasks = s.maxTasks ∧ (s.maxTasks ≠ 0 → s.tasks.length ≤ s.maxTasks → s'.tasks.length ≤ s.maxTasks) := by
  obtain ⟨⟨m, hw⟩, m', hs⟩ := unlock_eq t s
  cases h with
  | unlock _ | quit _ => rw [hw]; exact ⟨fun _ => .inl, fun h => ⟨h, rfl⟩, rfl, fun _ => id⟩
  | unlockSafe _ => rw [hs]; exact ⟨fun _ => .inl, fun h => ⟨h, rfl⟩, rfl, fun _ => id⟩
  | take _ hc =>
    refine ⟨fun e he => .inl (hc ▸ mem_cons_of_mem _ he), fun h => ⟨h, rfl⟩, rfl, fun _ hle => ?_⟩
    rw [hc, length_cons] at hle
    exact le_of_succ_le hle
  | accept hl hch hst hf =>
    refine ⟨fun e he => ?_, fun h => absurd (hst.symm.trans h) false_ne_true, rfl, fun hm _ => ?_⟩
    · rcases mem_append.mp he with he | he
      · exact .inl he
      · rw [mem_singleton.mp he]
        exact .inr ⟨_, hl, hch⟩
    · have hr : ¬s.maxTasks ≤ s.tasks.length := fun h => hf ⟨hm, h⟩
      rw [length_append, length_singleton]
      omega
  | stop _ => exact ⟨fun _ => .inl, fun _ => ⟨rfl, rfl⟩, rfl, fun _ => id⟩
  | clean _ => exact ⟨fun _ he => absurd he not_mem_nil, fun h => ⟨h, rfl⟩, rfl, fun _ _ => zero_le _⟩
  | _ => exact ⟨fun _ => .inl, fun h => ⟨h, rfl⟩, rfl, fun _ => id⟩

/-- The queue is one: tasks are added at its end and taken from its front. -/
theorem Move.tasks : s'.tasks = s.tasks ∨ (∃ e, s'.tasks = s.tasks ++ [e]) ∨
    (∃ e, s.tasks = e :: s'.tasks ∧ o'.loc = .wTaken e) ∨ o.loc = .dClean := by
  obtain ⟨⟨m, hw⟩, m', hs⟩ := unlock_eq t s
  cases h with
  | unlock _ | quit _ => rw [hw]; exact .inl rfl
  | unlockSafe _ => rw [hs]; exact .inl rfl
  | take _ hc => exact .inr (.inr (.inl ⟨_, hc, rfl⟩))
  | accept _ _ _ _ => exact .inr (.inl ⟨_, rfl⟩)
  | clean hl => exact .inr (.inr (.inr hl))
  | _ => exact .inl rfl

/-- A wrapper in the hands of a worker was in the queue. -/
theorem Move.wrapper {e : PoolTask} (he : o'.loc.wrapper = some e) : o.loc.wrapper = some e ∨ e ∈ s.tasks := by
  obtain ⟨l, err, before⟩ := o
  cases h with
  | pass h =>
    cases h with
    | stay => exact .inl he
    | gone _ h => cases h <;> cases he
    | _ => cases he
  | unlock h =>
    cases h with
    | taken => exact .inl he
    | _ => cases he
  | lock _ h | lockSafe _ h | unlockSafe h => cases h <;> cases he
  | take _ hc =>
    cases he
    exact .inr (hc ▸ mem_cons_self)
  | _ => cases he

/-- A worker stays one, or has returned. -/
theorem Move.worker (hw : o.loc.works = true ∨ o.loc = .done) : o'.loc.works = true ∨ o'.loc = .done := by
  obtain ⟨l, err, before⟩ := o
  cases h with
  | pass h =>
    rcases h.sameRole with hr | ⟨e, hl, rfl, -⟩
    · rcases hw with hw | hd
      · exact .inl (hr.works.trans hw)
      · cases hd
        cases h with
        | stay => exact .inr rfl
        | gone _ h => cases h
    · exact .inl rfl
  | lock _ h | lockSafe _ h | unlock h | unlockSafe h =>
    rcases hw with hw | hd
    · exact .inl (h.sameRole.works.trans hw)
    · cases hd
      cases h
  | quit _ => exact .inr rfl
  | take _ _ | nested _ _ | call _ | returns _ | leave _ => exact .inl rfl
  | accept hl _ _ _ =>
    cases hl
    exact .inl (hw.resolve_right fun h => by cases h)
  | submit hl _ | wait hl _ | destroy hl _ | stop hl | clean hl =>
    cases hl
    rcases hw with h | h <;> cases h

/-- A pool that is destroyed stays so. -/
theorem Move.destroyed_stays (hd : s.destroyed = true) : s'.destroyed = true := by
  obtain ⟨⟨m, hw⟩, m', hs⟩ := unlock_eq t s
  cases h with
  | unlock _ | quit _ => rw [hw]; exact hd
  | unlockSafe _ => rw [hs]; exact hd
  | clean _ => rfl
  | _ => exact hd

/-- The pool is destroyed after the workers. -/
theorem Move.destroyed : s'.destroyed = true → s.destroyed = true ∨ o.loc = .dClean := by
  obtain ⟨⟨m, hw⟩, m', hs⟩ := unlock_eq t s
  cases h with
  | unlock _ | quit _ => rw [hw]; exact .inl
  | unlockSafe _ => rw [hs]; exact .inl
  | clean hl => exact fun _ => .inr hl
  | _ => exact .inl

end

/-! ## All threads -/

/-- There is memory for the wrapper, when one is made. -/
def stores (c : System T) (i : T × PoolChoice) : Bool :=
  match (c.own i.1).loc, i.2 with
  | .sTest _, .go false _ => false
  | _, _ => true

omit [DecidableEq T] in
theorem stores_of_ne {c : System T} {i : T × PoolChoice} (h : ∀ b, i.2 ≠ .go false b) : stores c i = true := by
  unfold stores
  split
  · rename_i hch
    exact absurd hch (h _)
  · rfl

variable [Fintype T]

/-- Every accepted task is in one place, and what has been started is with a worker or finished. -/
structure Sound (worker : T → Bool) (maxTasks : ℕ) (c : System T) : Prop where
  stored : ∀ e ∈ c.shared.tasks, e.stored = true
  wrappers : ∀ t e, (c.own t).loc.wrapper = some e → e.stored = true
  notes : ∀ t, Notes c.shared (c.own t).loc
  workers : ∀ t, worker t = true → (c.own t).loc.works = true ∨ (c.own t).loc = .done
  active : Threads.Counts active (fun o => o.loc.counted) c
  alive : Threads.Counts alive (fun o => o.loc.works) c
  destroyed : c.shared.destroyed = true → c.shared.alive = 0
  accounted : ∀ i, acceptedCount c.shared i =
    c.shared.tasks.countP (fun e => e.number = i) + Threads.tally (fun o => o.loc.task == some i) c.own + c.shared.finished i
  started : ∀ i, c.shared.started i = Threads.tally (fun o => o.loc.within == some i) c.own + c.shared.finished i
  max : c.shared.maxTasks = maxTasks
  bounded : maxTasks ≠ 0 → c.shared.tasks.length ≤ maxTasks

variable {worker : T → Bool} {maxTasks : ℕ} {c : System T} {i : T × PoolChoice}

section

variable (h : Sound worker maxTasks c)

include h

section

omit [DecidableEq T]

/-- When all workers have returned, the queue is empty. -/
theorem Sound.tasks_nil (hwr : ∃ w, worker w = true) (ha : c.shared.alive = 0) : c.shared.tasks = [] := by
  obtain ⟨w, hw⟩ := hwr
  have hid := h.alive.eq_zero.mp ha w
  have hnt := h.notes w
  rw [(h.workers w hw).resolve_left (eq_false_iff.mp hid)] at hnt
  exact hnt.2

/-- When the queue is empty and no worker is active, every accepted task is finished. -/
theorem Sound.finished_of_rest (ht : c.shared.tasks = []) (ha : c.shared.active = 0) (k : ℕ)
    (hk : k < c.shared.accepted) : c.shared.finished k = 1 := by
  have hh : tally (fun o : PoolOwn => o.loc.task == some k) c.own = 0 := by
    refine tally_eq_zero.mpr fun t => beq_eq_false_iff_ne.mpr fun hts => ?_
    exact false_ne_true ((h.active.eq_zero.mp ha t).symm.trans (counted_of_task hts))
  have hc := h.accounted k
  rw [ht, hh] at hc
  simpa [acceptedCount, hk] using hc.symm

/-- So it is when all workers have returned. -/
theorem Sound.finished (hw : ∃ w, worker w = true) (ha : c.shared.alive = 0) (k : ℕ)
    (hk : k < c.shared.accepted) : c.shared.finished k = 1 := by
  refine h.finished_of_rest (h.tasks_nil hw ha) (h.active.eq_zero.mpr fun t => ?_) k hk
  refine eq_false_iff.mpr fun hc => ?_
  exact false_ne_true ((h.alive.eq_zero.mp ha t).symm.trans (works_of_counted hc))

/-- A task is started once at most, and finished once at most. -/
theorem Sound.once (k : ℕ) : c.shared.started k ≤ 1 ∧ c.shared.finished k ≤ 1 := by
  have hw : tally (fun o : PoolOwn => o.loc.within == some k) c.own ≤
      tally (fun o : PoolOwn => o.loc.task == some k) c.own := by
    refine Finset.card_le_card fun t ht => ?_
    rw [Finset.mem_filter, beq_iff_eq] at ht ⊢
    exact ⟨ht.1, task_eq_of_within ht.2⟩
  have ha : acceptedCount c.shared k ≤ 1 := toNat_le _
  have h1 := h.accounted k
  have h2 := h.started k
  omega

end

/-- Every turn for which there is memory keeps the pool sound. -/
theorem Sound.step (hwr : ∃ w, worker w = true) (hs : stores c i = true) : Sound worker maxTasks (step c i) := by
  have hmv := turn_move i.1 c.shared (c.own i.1) i.2
  obtain ⟨hq, -, hm, hb⟩ := hmv.queue
  have hc := hmv.counters (fun hp => h.active.symm ▸ Threads.tally_pos hp) (fun hp => h.alive.symm ▸ Threads.tally_pos hp)
  have hcl : (c.own i.1).loc = .dClean → c.shared.alive = 0 := by
    intro hl
    have hnt := h.notes i.1
    rw [hl] at hnt
    exact hnt
  exact {
    stored := by
      intro e he
      rcases hq e he with ho | ⟨w, hl, hch⟩
      · exact h.stored e ho
      · unfold stores at hs
        rw [hl, hch] at hs
        exact of_not_eq_false fun hf => by simp [hf] at hs
    wrappers := by
      refine Threads.forall_own_step
        (P := fun (_ : T) (_ : ThreadPool T) (o : PoolOwn) => ∀ e, o.loc.wrapper = some e → e.stored = true) (fun e he => ?_)
        (fun t _ => h.wrappers t)
      exact (hmv.wrapper he).elim (h.wrappers _ e) (h.stored e)
    notes := Threads.forall_own_step (P := fun (_ : T) (s : ThreadPool T) (o : PoolOwn) => Notes s o.loc) (hmv.notes (h.notes _))
      (fun t _ => hmv.notes_other (h.notes t))
    workers := Threads.forall_own_step
      (P := fun (t : T) (_ : ThreadPool T) (o : PoolOwn) => worker t = true → o.loc.works = true ∨ o.loc = .done)
      (fun hw => hmv.worker (h.workers _ hw)) (fun t _ => h.workers t)
    active := h.active.step fun _ => hc.1
    alive := h.alive.step fun _ => hc.2
    destroyed := fun hd => hmv.ended.2 ((hmv.destroyed hd).elim h.destroyed hcl)
    accounted := by
      intro k
      have hpl := hmv.placed (h.wrappers i.1) (fun hl => h.tasks_nil hwr (hcl hl)) k
      have ht := Threads.tally_update (fun o : PoolOwn => o.loc.task == some k) c.own i.1 (c.shared.turn i.1 (c.own i.1) i.2).2
      have hbf := h.accounted k
      unfold placed at hpl
      change acceptedCount (c.shared.turn i.1 (c.own i.1) i.2).1 k = _ + Threads.tally _ (update _ _ _) +
        (c.shared.turn i.1 (c.own i.1) i.2).1.finished k
      dsimp only [ThreadPool.step, Threads.step]
      omega
    started := by
      intro k
      have hcnt := hmv.startedCount k
      have ht := Threads.tally_update (fun o : PoolOwn => o.loc.within == some k) c.own i.1 (c.shared.turn i.1 (c.own i.1) i.2).2
      have hbf := h.started k
      beta_reduce at ht
      change (c.shared.turn i.1 (c.own i.1) i.2).1.started k = Threads.tally _ (update _ _ _) +
        (c.shared.turn i.1 (c.own i.1) i.2).1.finished k
      beta_reduce
      omega
    max := hm.trans h.max
    bounded := by
      intro hne
      rw [← h.max] at hne ⊢
      exact hb hne (h.max ▸ h.bounded (h.max ▸ hne)) }

end

omit [DecidableEq T] in
theorem initial_own (worker : T → Bool) (maxTasks : ℕ) (threadSafe : Bool) (t : T) :
    (initial worker maxTasks threadSafe).own t = { loc := .wLock } ∨ (initial worker maxTasks threadSafe).own t = {} := by
  unfold ThreadPool.initial
  dsimp only
  split
  · exact .inl rfl
  · exact .inr rfl

omit [DecidableEq T] in
/-- A new pool is sound. -/
theorem Sound.initial (worker : T → Bool) (maxTasks : ℕ) (threadSafe : Bool) :
    Sound worker maxTasks (initial worker maxTasks threadSafe) := by
  have ho : ∀ t, (ThreadPool.initial worker maxTasks threadSafe).own t = if worker t = true then { loc := .wLock } else {} :=
    fun _ => rfl
  have hno : ∀ (f : PoolLoc → Option ℕ) (k : ℕ), f .wLock = none → f .idle = none →
      tally (fun o : PoolOwn => f o.loc == some k) (ThreadPool.initial worker maxTasks threadSafe).own = 0 := by
    intro f k h1 h2
    refine tally_eq_zero.mpr fun t => ?_
    rw [ho]
    split <;> simp [h1, h2]
  have hwr : ∀ t, ((ThreadPool.initial worker maxTasks threadSafe).own t).loc.works = worker t := by
    intro t
    rw [ho]
    cases worker t <;> rfl
  refine ⟨by rintro _ ⟨⟩, fun t e he => ?_, fun t => ?_, fun t hw => .inl ((hwr t).trans hw), ?_, ?_, ?_, fun k => ?_, fun k => ?_,
    rfl, fun _ => zero_le _⟩
  · rw [ho] at he
    cases h : worker t <;> simp [h, wrapper] at he
  · rw [ho]
    split <;> trivial
  · refine (tally_eq_zero.mpr fun t => ?_).symm
    rw [ho]
    split <;> rfl
  · unfold Threads.Counts tally
    simp only [hwr]
    rfl
  · exact nofun
  · rw [hno task k rfl rfl]
    simp [acceptedCount, ThreadPool.initial]
  · rw [hno within k rfl rfl]
    rfl

end ThreadPool

end Libft.Threading
