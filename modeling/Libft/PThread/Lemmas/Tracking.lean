import Libft.Lib.Cycles
import Libft.PThread.LockTracking

/-!
# What the threads know of their mutexes

A thread that holds the native mutex is the one in `_owner`, and has the mutex in its list, apart from the turns in which it takes or
releases it; and a thread that asks for a mutex does not hold it. The search for a cycle finds one exactly when the marks of the
registry lead from the mutex to one of the origin's.
-/

namespace Libft.PThread

open Function List Option LockLoc

variable {T M : Type}

/-- The mutex that a call is about. -/
def LockLoc.mutex : LockLoc M → Option M
  | .idle => none
  | .ckOwner _ m | .ckSelf _ m _ | .lkFlag m | .lkTry m | .lkWait m | .lkBlock m | .tlTry m _ | .stOwner m | .stLock m | .acquired m
  | .ulFlag m | .ulOwner m | .ulClearLock m | .ulClearOwner m | .ulNative m | .released m => some m

/-- The mutex that a thread has just taken and is about to record. -/
def LockLoc.acquiring : LockLoc M → Option M
  | .stOwner m | .stLock m | .acquired m => some m
  | _ => none

/-- The mutex whose fields a thread is changing. -/
def LockLoc.inside : LockLoc M → Option M
  | .stOwner m | .stLock m | .acquired m | .ulClearLock m | .ulClearOwner m | .ulNative m => some m
  | _ => none

/-- The mutex that a thread has seen not to be its own: one it asks for, or has released. -/
def LockLoc.lacking : LockLoc M → Option M
  | .ckSelf _ m self => if self then none else some m
  | .lkFlag m | .lkTry m | .lkWait m | .lkBlock m | .tlTry m _ | .released m => some m
  | _ => none

/-- A place from which the native mutex is taken. -/
def LockLoc.taking : LockLoc M → Option M
  | .lkTry m | .lkBlock m | .tlTry m _ => some m
  | _ => none

namespace LockLoc

variable {l : LockLoc M} {m : M}

theorem mutex_of_inside (h : l.inside = some m) : l.mutex = some m := by
  cases l <;> first | exact h | cases h

theorem inside_of_acquiring (h : l.acquiring = some m) : l.inside = some m := by
  cases l <;> first | exact h | cases h

theorem lacking_of_taking (h : l.taking = some m) : l.lacking = some m := by
  cases l <;> first | exact h | cases h

theorem mutex_of_lacking (h : l.lacking = some m) : l.mutex = some m := by
  cases l with
  | ckSelf b m self =>
    cases self with
    | true => cases h
    | false => exact h
  | _ => first | exact h | cases h

end LockLoc

/-- What `pushOnce` adds. -/
theorem mem_pushOnce [DecidableEq M] {l : List M} {m x : M} : x ∈ pushOnce l m ↔ x ∈ l ∨ x = m := by
  unfold pushOnce
  split
  · rename_i hin
    exact ⟨.inl, fun h => h.elim id fun hx => hx ▸ hin⟩
  · rw [mem_append, mem_singleton]

theorem nodup_pushOnce [DecidableEq M] {l : List M} (h : l.Nodup) (m : M) : (pushOnce l m).Nodup := by
  unfold pushOnce
  split
  · exact h
  · rename_i hn
    exact nodup_append.mpr ⟨h, nodup_singleton m, by rintro a ha b hb rfl; exact hn (mem_singleton.mp hb ▸ ha)⟩

namespace Tracker

variable {t u : T} {s s' : Tracker T M} {o o' : LockOwn M} {m : M} {l : LockLoc M}

/-! ## Holders -/

/-- What a thread has written about a mutex that it holds, by its place. -/
structure Holding (s : Tracker T M) (t : T) (o : LockOwn M) (m : M) : Prop where
  owner : o.loc ≠ .stOwner m → o.loc ≠ .ulNative m → s.owner m = some t
  cleared : o.loc = .ulNative m → s.owner m = none
  locked : o.loc ≠ .stOwner m → o.loc ≠ .stLock m → o.loc ≠ .ulClearOwner m → o.loc ≠ .ulNative m → s.locked m = true
  listed : o.loc.inside ≠ some m → m ∈ o.owned

/-- What a thread knows: of the mutexes it holds, is at work on, has in its list or lacks. -/
structure Knows (s : Tracker T M) (t : T) (o : LockOwn M) : Prop where
  holding : ∀ m, s.native m = some t → Holding s t o m
  inside : ∀ m, o.loc.inside = some m → s.native m = some t
  listed : ∀ m ∈ o.owned, (s.native m = some t ∧ o.loc.acquiring ≠ some m) ∨ o.loc = .released m
  nodup : o.owned.Nodup
  lacking : ∀ m, o.loc.lacking = some m → s.native m ≠ some t

/-- All has been written about a mutex. -/
structure Settled (s : Tracker T M) (t : T) (o : LockOwn M) (m : M) : Prop where
  owner : s.owner m = some t
  locked : s.locked m = true
  listed : m ∈ o.owned

/-- A mutex that is not being released is held. -/
theorem Settled.holding (h : Settled s t o m) (hl : o.loc ≠ .ulNative m) : Holding s t o m :=
  ⟨fun _ _ => h.owner, fun hat => absurd hat hl, fun _ _ _ _ => h.locked, fun _ => h.listed⟩

/-- That is so of every mutex that the thread holds and is not at work on. -/
theorem Knows.settled (h : Knows s t o) (hh : s.native m = some t) (hc : o.loc.inside ≠ some m) : Settled s t o m := by
  obtain ⟨ho, -, hlc, hls⟩ := h.holding m hh
  have hne : ∀ l : LockLoc M, l.inside = some m → o.loc ≠ l := by
    rintro _ hl rfl
    exact hc hl
  exact ⟨ho (hne _ rfl) (hne _ rfl), hlc (hne _ rfl) (hne _ rfl) (hne _ rfl) (hne _ rfl), hls hc⟩

/-- A mutex that is being acquired is not owned yet. -/
theorem Knows.notMem_of_acquiring (h : Knows s t o) (hl : o.loc.acquiring = some m) : m ∉ o.owned := by
  intro hin
  rcases h.listed m hin with ⟨-, hn⟩ | hat
  · exact hn hl
  · rw [hat] at hl
    cases hl

/-- `_owner` names the holder or nobody. -/
def OwnerHolds (s : Tracker T M) : Prop := ∀ m t, s.owner m = some t → s.native m = some t

/-- The fields of the mutexes of other threads are left alone. -/
structure Frame (t : T) (s s' : Tracker T M) : Prop where
  native : ∀ m u, u ≠ t → (s'.native m = some u ↔ s.native m = some u)
  fields : ∀ m u, u ≠ t → s.native m = some u → s'.owner m = s.owner m ∧ s'.locked m = s.locked m

/-- What others do within their frame leaves a thread's knowledge right. -/
theorem Knows.other (h : Knows s u o) (hu : u ≠ t) (hf : Frame t s s') : Knows s' u o where
  holding m hm := by
    have hb := (hf.native m u hu).mp hm
    obtain ⟨ho, hl⟩ := hf.fields m u hu hb
    obtain ⟨h1, h2, h3, h4⟩ := h.holding m hb
    exact ⟨ho ▸ h1, ho ▸ h2, hl ▸ h3, h4⟩
  inside m hm := (hf.native m u hu).mpr (h.inside m hm)
  listed m hm := (h.listed m hm).imp_left fun hh => ⟨(hf.native m u hu).mpr hh.1, hh.2⟩
  nodup := h.nodup
  lacking m hm hh := h.lacking m hm ((hf.native m u hu).mp hh)

/-- A turn that leaves the mutexes and the list of the thread alone, and its place not at work on a mutex. -/
theorem Knows.moved (h : Knows s t o) (hnt : s'.native = s.native) (how : s'.owner = s.owner) (hlc : s'.locked = s.locked)
    (ho : o'.owned = o.owned) (hi : o.loc.inside = none) (hr : ∀ m, o.loc ≠ .released m)
    (ha : o'.loc.acquiring = none) (hun : ∀ m, o'.loc ≠ .ulNative m)
    (hn : ∀ m, o'.loc.inside = some m → s.native m = some t)
    (hl : ∀ m, o'.loc.lacking = some m → s.native m ≠ some t) : Knows s' t o' where
  holding m hm := by
    have hs := h.settled (hnt ▸ hm) (by rw [hi]; exact (some_ne_none m).symm)
    exact Settled.holding ⟨how ▸ hs.owner, hlc ▸ hs.locked, ho ▸ hs.listed⟩ (hun m)
  inside m hm := hnt ▸ hn m hm
  listed m hm := by
    rcases h.listed m (ho ▸ hm) with ⟨hh, -⟩ | hat
    · exact .inl ⟨hnt ▸ hh, by rw [ha]; exact (some_ne_none m).symm⟩
    · exact absurd hat (hr m)
  nodup := ho ▸ h.nodup
  lacking m hm := hnt ▸ hl m hm

/-- A place that is about no other mutex than `m`. -/
def About (m : M) (l : LockLoc M) : Prop := ∀ x, l.mutex = some x → x = m

theorem About.of_mutex (h : l.mutex = some m) : About m l := fun _ hx => some.inj (hx.symm.trans h)

theorem About.idle (m : M) : About m .idle := nofun

/-- A turn at one mutex: what the thread knows of the others stays, and of this one it is to be seen. -/
theorem Knows.worked (h : Knows s t o) (ha : About m o.loc) (ha' : About m o'.loc)
    (hf : ∀ x, x ≠ m → s'.native x = s.native x ∧ s'.owner x = s.owner x ∧ s'.locked x = s.locked x)
    (ho : ∀ x, x ≠ m → (x ∈ o'.owned ↔ x ∈ o.owned)) (hnd : o'.owned.Nodup)
    (hh : s'.native m = some t → Holding s' t o' m) (hi : o'.loc.inside = some m → s'.native m = some t)
    (hls : m ∈ o'.owned → (s'.native m = some t ∧ o'.loc.acquiring ≠ some m) ∨ o'.loc = .released m)
    (hl : o'.loc.lacking = some m → s'.native m ≠ some t) : Knows s' t o' where
  holding x hx := by
    by_cases hxm : x = m
    · exact hxm ▸ hh (hxm ▸ hx)
    · obtain ⟨hnt, how, hlc⟩ := hf x hxm
      have hs := h.settled (hnt ▸ hx) (fun hin => hxm (ha x (mutex_of_inside hin)))
      refine Settled.holding ⟨how ▸ hs.owner, hlc ▸ hs.locked, (ho x hxm).mpr hs.listed⟩ ?_
      exact fun hat => hxm (ha' x (by rw [hat]; rfl))
  inside x hx := by
    obtain rfl := ha' x (mutex_of_inside hx)
    exact hi hx
  listed x hx := by
    by_cases hxm : x = m
    · exact hxm ▸ hls (hxm ▸ hx)
    · rcases h.listed x ((ho x hxm).mp hx) with ⟨hhl, -⟩ | hat
      · exact .inl ⟨(hf x hxm).1 ▸ hhl, fun hin => hxm (ha' x (mutex_of_inside (inside_of_acquiring hin)))⟩
      · exact absurd (ha x (by rw [hat]; rfl)) hxm
  nodup := hnd
  lacking x hx := by
    obtain rfl := ha' x (mutex_of_lacking hx)
    exact hl hx

/-- A change of one mutex, which is the thread's or free before and after. -/
theorem Frame.of_eq_off (ho : ∀ x, x ≠ m → s'.native x = s.native x ∧ s'.owner x = s.owner x ∧ s'.locked x = s.locked x)
    (hb : s.native m = none ∨ s.native m = some t) (ha : s'.native m = none ∨ s'.native m = some t) : Frame t s s' := by
  have hn : ∀ {x : Option T} {u : T}, u ≠ t → (x = none ∨ x = some t) → x ≠ some u := by
    rintro _ u hu (rfl | rfl)
    · exact (some_ne_none u).symm
    · exact fun heq => hu (some.inj heq).symm
  constructor
  · intro x u hu
    by_cases hx : x = m
    · subst hx
      exact ⟨fun h => absurd h (hn hu ha), fun h => absurd h (hn hu hb)⟩
    · rw [(ho x hx).1]
  · intro x u hu hh
    have hx : x ≠ m := by
      rintro rfl
      exact hn hu hb hh
    exact (ho x hx).2

/-- A change of the registry. -/
theorem Frame.of_registry (h : s'.native = s.native ∧ s'.owner = s.owner ∧ s'.locked = s.locked) : Frame t s s' :=
  ⟨fun m u _ => by rw [h.1], fun m u _ _ => by rw [h.2.1, h.2.2]; exact ⟨rfl, rfl⟩⟩

theorem OwnerHolds.of_registry (ho : OwnerHolds s) (h : s'.native = s.native ∧ s'.owner = s.owner ∧ s'.locked = s.locked) :
    OwnerHolds s' := fun m t hm => h.1 ▸ ho m t (h.2.1 ▸ hm)

variable [DecidableEq T] [DecidableEq M]

/-! ## The registry -/

section

variable (s : Tracker T M) (t : T) (o : LockOwn M)

omit [DecidableEq T] in
/-- A thread is recorded as the owner of every mutex of a list. -/
theorem setMutexOwners_eq (l : List M) : l.foldl (fun s m => s.setMutexOwner m t) s =
    { s with owners := fun m => if m ∈ l then some t else s.owners m } := by
  induction l generalizing s with
  | nil => simp
  | cons a l ih =>
    rw [foldl_cons, ih]
    simp only [setMutexOwner, mem_cons]
    congr 1
    funext m
    by_cases hl : m ∈ l
    · simp [hl]
    · by_cases ha : m = a
      · subst ha
        simp
      · simp [hl, ha]

/-- Publishing copies the list of the thread and names it as owner. -/
theorem publishLocalState_eq :
    s.publishLocalState t o =
      { s.setInfo t { s.findThreadInfo t with owned := o.owned } with
        owners := fun m => if m ∈ o.owned then some t else s.owners m } := by
  rw [publishLocalState, setMutexOwners_eq]
  rfl

/-- Marking a wait publishes the list of the thread and what it waits for. -/
theorem markWaiting_eq (m : M) :
    s.markWaiting t o m =
      { s with
        infos := update s.infos t (some ⟨o.owned, some m⟩)
        owners := fun m => if m ∈ o.owned then some t else s.owners m } := by
  simp [markWaiting, publishLocalState_eq, setInfo, findThreadInfo]

/-- The tracker leaves the mutexes alone when it notes an acquisition. -/
theorem notifyAcquired_native (m : M) :
    (s.notifyAcquired t o m).1.native = s.native ∧ (s.notifyAcquired t o m).1.owner = s.owner ∧
      (s.notifyAcquired t o m).1.locked = s.locked := by
  unfold notifyAcquired
  split <;> exact ⟨rfl, rfl, rfl⟩

/-- It does so when it notes a release. -/
theorem notifyReleased_native (m : M) :
    (s.notifyReleased t o m).1.native = s.native ∧ (s.notifyReleased t o m).1.owner = s.owner ∧
      (s.notifyReleased t o m).1.locked = s.locked := by
  unfold notifyReleased
  dsimp only
  split <;> exact ⟨rfl, rfl, rfl⟩

/-- An acquired mutex is in the list of the thread. -/
theorem notifyAcquired_own (m : M) : (s.notifyAcquired t o m).2.owned = pushOnce o.owned m ∧ (s.notifyAcquired t o m).2.loc = .idle := by
  unfold notifyAcquired
  split <;> exact ⟨rfl, rfl⟩

/-- A released mutex is out of it. -/
theorem notifyReleased_own (m : M) : (s.notifyReleased t o m).2.owned = o.owned.erase m ∧ (s.notifyReleased t o m).2.loc = .idle := by
  unfold notifyReleased
  dsimp only
  split <;> exact ⟨rfl, rfl⟩

/-- Marking a wait leaves the mutexes alone. -/
theorem markWaiting_native (m : M) :
    (s.markWaiting t o m).native = s.native ∧ (s.markWaiting t o m).owner = s.owner ∧ (s.markWaiting t o m).locked = s.locked := by
  rw [markWaiting_eq]
  exact ⟨rfl, rfl, rfl⟩

/-- A thread that marks a wait is recorded as owner of what it holds. -/
theorem markWaiting_owners (m x : M) : (s.markWaiting t o m).owners x = if x ∈ o.owned then some t else s.owners x := by
  rw [markWaiting_eq]

/-- An acquisition records the thread, or nothing. -/
theorem notifyAcquired_owners (m x : M) :
    (s.notifyAcquired t o m).1.owners x = s.owners x ∨ (x = m ∧ (s.notifyAcquired t o m).1.owners x = some t) := by
  unfold notifyAcquired
  split
  · exact .inl rfl
  · rcases eq_or_ne x m with rfl | hne
    · exact .inr ⟨rfl, by simp [setMutexOwner]⟩
    · exact .inl (by simp [setMutexOwner, setInfo, hne])

/-- A release removes the record of a thread that has published. -/
theorem notifyReleased_owners (m x : M) :
    (s.notifyReleased t o m).1.owners x = if o.published = true ∧ x = m then none else s.owners x := by
  unfold notifyReleased
  dsimp only [forget]
  cases hpublished : o.published with
  | false => simp
  | true => simp [clearMutexOwner, setInfo, update_apply]

end

/-! ## Turns -/

/-- A turn that changes the place of the thread only. -/
inductive Passes (t : T) (s : Tracker T M) : LockLoc M → LockLoc M → Prop
  | stay (l : LockLoc M) : Passes t s l l
  | askOwner (b : Bool) (m : M) : Passes t s .idle (.ckOwner b m)
  | askUnlock (m : M) : Passes t s .idle (.ulFlag m)
  | ckOwner (b : Bool) (m : M) : Passes t s (.ckOwner b m) (.ckSelf b m (s.owner m = some t))
  | ckOwn (b : Bool) (m : M) (self : Bool) : Passes t s (.ckSelf b m self) .idle
  | ckTry (m : M) (self : Bool) : (s.locked m = false ∨ self = false) → Passes t s (.ckSelf true m self) (.tlTry m false)
  | ckLock (m : M) (self : Bool) : (s.locked m = false ∨ self = false) → Passes t s (.ckSelf false m self) (.lkFlag m)
  | flagWait (m : M) : Passes t s (.lkFlag m) (.lkWait m)
  | flagTry (m : M) : Passes t s (.lkFlag m) (.lkTry m)
  | tryWait (m : M) : Passes t s (.lkTry m) (.lkWait m)
  | tryAgain (m : M) (again : Bool) : Passes t s (.tlTry m again) (.tlTry m true)
  | tryNot (m : M) (again : Bool) : Passes t s (.tlTry m again) .idle
  | ulFlag (m : M) : Passes t s (.ulFlag m) (.ulOwner m)
  | ulFree (m : M) : Passes t s (.ulFlag m) .idle
  | ulOwner (m : M) : s.owner m = some t → Passes t s (.ulOwner m) (.ulClearLock m)
  | ulOther (m : M) : Passes t s (.ulOwner m) .idle

/-- What a call of the tracker leaves that runs out of memory: nothing of others, and for the thread itself records of mutexes in its
list, or of the one it has just taken. -/
structure Falls (t : T) (s : Tracker T M) (o : LockOwn M) (s' : Tracker T M) (o' : LockOwn M) : Prop where
  fields : s'.native = s.native ∧ s'.owner = s.owner ∧ s'.locked = s.locked
  infos : ∀ u, u ≠ t → s'.infos u = s.infos u
  owners : ∀ m, s'.owners m = s.owners m ∨ (s'.owners m = some t ∧ (m ∈ o.owned ∨ o.loc = .acquired m))
  owned : o'.owned = o.owned
  places : (∃ m, o.loc = .lkWait m) ∧ o'.loc = .idle ∨ ∃ m, o.loc = .acquired m ∧ o'.loc = .ulClearLock m

/-- What a turn does. -/
inductive Move [Fintype T] (t : T) (s : Tracker T M) (o : LockOwn M) : Tracker T M → LockOwn M → Prop
  | pass {l : LockLoc M} : Passes t s o.loc l → Move t s o s (o.goto l)
  | take {m : M} : s.native m = none → o.loc.taking = some m →
      Move t s o { s with native := update s.native m (some t) } (o.goto (.stOwner m))
  | wait {m : M} : o.loc = .lkWait m → Move t s o (s.notifyWait t o m).1 (s.notifyWait t o m).2
  | stOwner {m : M} : o.loc = .stOwner m → Move t s o { s with owner := update s.owner m (some t) } (o.goto (.stLock m))
  | stLock {m : M} : o.loc = .stLock m → Move t s o { s with locked := update s.locked m true } (o.goto (.acquired m))
  | acquired {m : M} : o.loc = .acquired m → Move t s o (s.notifyAcquired t o m).1 (s.notifyAcquired t o m).2
  | ulClearLock {m : M} : o.loc = .ulClearLock m →
      Move t s o { s with locked := update s.locked m false } (o.goto (.ulClearOwner m))
  | ulClearOwner {m : M} : o.loc = .ulClearOwner m →
      Move t s o { s with owner := update s.owner m none } (o.goto (.ulNative m))
  | ulNative {m : M} : o.loc = .ulNative m → Move t s o { s with native := update s.native m none } (o.goto (.released m))
  | released {m : M} : o.loc = .released m → Move t s o (s.notifyReleased t o m).1 (s.notifyReleased t o m).2
  | short {s' : Tracker T M} {o' : LockOwn M} : Falls t s o s' o' → Move t s o s' o'

omit [DecidableEq M] in
/-- Where a turn leads that changes the place only. -/
theorem Passes.places {l' : LockLoc M} (h : Passes t s l l') :
    l = l' ∨ (l.inside = none ∧ (∀ m, l ≠ .released m) ∧ l'.acquiring = none ∧ (∀ m, l' ≠ .ulNative m) ∧
      (∀ m, l'.inside = some m → s.owner m = some t) ∧
      ∀ m, l'.lacking = some m → l.lacking = some m ∨ s.locked m = false ∨ s.owner m ≠ some t) := by
  cases h with
  | stay => exact .inl rfl
  | ckTry m self hp | ckLock m self hp =>
    right
    rcases hp with hf | rfl <;> simp_all [inside, acquiring, lacking]
  | ulOwner m ho =>
    right
    simp [inside, acquiring, lacking, ho]
  | _ =>
    right
    simp +contextual [inside, acquiring, lacking]

omit [DecidableEq M] in
/-- Passing on within a call keeps a thread's knowledge right. -/
theorem Knows.pass (h : Knows s t o) (ho : OwnerHolds s) (hp : Passes t s o.loc l) : Knows s t (o.goto l) := by
  rcases hp.places with hsm | ⟨hi, hr, ha, hun, hn, hl⟩
  · rw [← hsm]
    exact h
  · refine h.moved rfl rfl rfl rfl hi hr ha hun (fun m hm => ho m t (hn m hm)) ?_
    intro m hm hh
    have hs := h.settled hh (by rw [hi]; exact (some_ne_none m).symm)
    rcases hl m hm with hd | hf | hot
    · exact h.lacking m hd hh
    · exact absurd (hs.locked.symm.trans hf) Bool.false_ne_true.symm
    · exact hot hs.owner

/-- A wait that fails: whatever was written before. -/
theorem notifyWaitShort_falls (hl : o.loc = .lkWait m) (sh : Shortage) :
    (s.notifyWaitShort t o m sh = (s, o)) ∨ Falls t s o (s.notifyWaitShort t o m sh).1 (s.notifyWaitShort t o m sh).2 := by
  have hi : ∀ {infos : Option (LockInfo M)} (u : T), u ≠ t → update s.infos t infos u = s.infos u := fun u hu => update_of_ne hu _ _
  cases sh with
  | entry => exact .inr ⟨⟨rfl, rfl, rfl⟩, fun _ _ => rfl, fun _ => .inl rfl, rfl, .inl ⟨⟨m, hl⟩, rfl⟩⟩
  | list => exact .inr ⟨⟨rfl, rfl, rfl⟩, hi, fun _ => .inl rfl, rfl, .inl ⟨⟨m, hl⟩, rfl⟩⟩
  | record k =>
    dsimp only [notifyWaitShort]
    split
    · rw [setMutexOwners_eq]
      refine .inr ⟨⟨rfl, rfl, rfl⟩, hi, fun x => ?_, rfl, .inl ⟨⟨m, hl⟩, rfl⟩⟩
      dsimp only
      split
      · exact .inr ⟨rfl, .inl (mem_of_mem_take ‹_›)⟩
      · exact .inl rfl
    · exact .inl rfl
  | last =>
    dsimp only [notifyWaitShort]
    rw [markWaiting_eq]
    refine .inr ⟨⟨rfl, rfl, rfl⟩, hi, fun x => ?_, rfl, .inl ⟨⟨m, hl⟩, rfl⟩⟩
    dsimp only
    split
    · exact .inr ⟨rfl, .inl ‹_›⟩
    · exact .inl rfl

/-- A mutex that cannot be recorded. -/
theorem notifyAcquiredShort_falls (hl : o.loc = .acquired m) (sh : Shortage) :
    Falls t s o (s.notifyAcquiredShort t o m sh).1 (s.notifyAcquiredShort t o m sh).2 := by
  have hi : ∀ {infos : Option (LockInfo M)} (u : T), u ≠ t → update s.infos t infos u = s.infos u := fun u hu => update_of_ne hu _ _
  unfold notifyAcquiredShort
  split
  · exact ⟨⟨rfl, rfl, rfl⟩, fun _ _ => rfl, fun _ => .inl rfl, rfl, .inr ⟨m, hl, rfl⟩⟩
  · cases sh with
    | entry => exact ⟨⟨rfl, rfl, rfl⟩, fun _ _ => rfl, fun _ => .inl rfl, rfl, .inr ⟨m, hl, rfl⟩⟩
    | list | record => exact ⟨⟨rfl, rfl, rfl⟩, hi, fun _ => .inl rfl, rfl, .inr ⟨m, hl, rfl⟩⟩
    | last =>
      refine ⟨⟨rfl, rfl, rfl⟩, hi, fun x => ?_, rfl, .inr ⟨m, hl, rfl⟩⟩
      rcases eq_or_ne x m with rfl | hne
      · exact .inr ⟨update_self .., .inr hl⟩
      · exact .inl (update_of_ne hne ..)

variable [Fintype T]

/-- Every turn is a move. -/
theorem turn_move (t : T) (s : Tracker T M) (o : LockOwn M) (ch : LockChoice M) : Move t s o (s.turn t o ch).1 (s.turn t o ch).2 := by
  have hs : Move t s o s o := .pass (.stay o.loc)
  cases ch with
  | call c =>
    dsimp only [turn]
    split
    · rename_i hid
      cases c with
      | lock m | tryLock m => exact .pass (hid ▸ .askOwner _ m)
      | unlock m => exact .pass (hid ▸ .askUnlock m)
    · exact hs
  | go ok =>
    dsimp only [turn, go]
    split
    · exact hs
    · rename_i b m hl
      exact .pass (hl ▸ .ckOwner b m)
    · rename_i b m self hl
      refine .pass (hl ▸ ?_)
      by_cases hown : s.locked m && self
      · rw [if_pos hown]
        exact .ckOwn b m self
      · rw [if_neg hown]
        have hp := Bool.and_eq_false_iff.mp (eq_false_of_ne_true hown)
        cases b with
        | true => exact .ckTry m self hp
        | false => exact .ckLock m self hp
    · rename_i m hl
      refine .pass (hl ▸ ?_)
      split
      · exact .flagWait m
      · exact .flagTry m
    · rename_i m hl
      split
      · rename_i h
        exact .take h.1 (by rw [hl]; rfl)
      · exact .pass (hl ▸ .tryWait m)
    · exact .wait ‹_›
    · rename_i m hl
      split
      · exact .take ‹_› (by rw [hl]; rfl)
      · exact hs
    · rename_i m again hl
      split
      · rename_i h
        exact .take h.1 (by rw [hl]; rfl)
      · refine .pass (hl ▸ ?_)
        split
        · exact .tryNot m again
        · exact .tryAgain m again
    · exact .stOwner ‹_›
    · exact .stLock ‹_›
    · exact .acquired ‹_›
    · rename_i m hl
      refine .pass (hl ▸ ?_)
      split
      · exact .ulFlag m
      · exact .ulFree m
    · rename_i m hl
      refine .pass (hl ▸ ?_)
      split
      · exact .ulOwner m ‹_›
      · exact .ulOther m
    · exact .ulClearLock ‹_›
    · exact .ulClearOwner ‹_›
    · exact .ulNative ‹_›
    · exact .released ‹_›
  | short sh =>
    dsimp only [turn]
    split
    · rename_i m hl
      rcases notifyWaitShort_falls (s := s) (t := t) hl sh with heq | hf
      · rw [heq]
        exact hs
      · exact .short hf
    · exact .short (notifyAcquiredShort_falls ‹_› sh)
    · exact hs

/-- A move stays within the frame of its thread. -/
theorem Move.frame (h : Move t s o s' o') (hk : Knows s t o) : Frame t s s' := by
  cases h with
  | pass _ => exact .of_registry ⟨rfl, rfl, rfl⟩
  | @take m hf _ =>
    exact .of_eq_off (m := m) (fun x hx => ⟨update_of_ne hx _ _, rfl, rfl⟩) (.inl hf) (.inr (update_self ..))
  | @wait m _ => exact .of_registry (markWaiting_native s t o m)
  | @stOwner m hl | @ulClearOwner m hl =>
    have hh := hk.inside m (by rw [hl]; rfl)
    exact .of_eq_off (m := m) (fun x hx => ⟨rfl, update_of_ne hx _ _, rfl⟩) (.inr hh) (.inr hh)
  | @stLock m hl | @ulClearLock m hl =>
    have hh := hk.inside m (by rw [hl]; rfl)
    exact .of_eq_off (m := m) (fun x hx => ⟨rfl, rfl, update_of_ne hx _ _⟩) (.inr hh) (.inr hh)
  | @acquired m _ => exact .of_registry (notifyAcquired_native s t o m)
  | @ulNative m hl =>
    have hh := hk.inside m (by rw [hl]; rfl)
    exact .of_eq_off (m := m) (fun x hx => ⟨update_of_ne hx _ _, rfl, rfl⟩) (.inr hh) (.inl (update_self ..))
  | @released m _ => exact .of_registry (notifyReleased_native s t o m)
  | short h => exact .of_registry h.fields

/-- After the question whether it may wait a thread blocks or has given up. -/
theorem notifyWait_loc (s : Tracker T M) (t : T) (o : LockOwn M) (m : M) :
    (s.notifyWait t o m).2.loc = .idle ∨ (s.notifyWait t o m).2.loc = .lkBlock m := by
  unfold notifyWait
  dsimp only
  split
  · exact .inl rfl
  · exact .inr rfl

/-- A move keeps its thread's knowledge right. -/
theorem Move.knows (h : Move t s o s' o') (hk : Knows s t o) (hn : OwnerHolds s) : Knows s' t o' := by
  cases h with
  | pass hp => exact hk.pass hn hp
  | @take m hf ht =>
    have hlc := lacking_of_taking ht
    refine hk.worked (.of_mutex (mutex_of_lacking hlc)) (.of_mutex (m := m) rfl)
      (fun x hx => ⟨update_of_ne hx _ _, rfl, rfl⟩) (fun _ _ => Iff.rfl) hk.nodup ?_ (fun _ => update_self ..) ?_ ?_
    · intro _
      exact ⟨fun h _ => absurd rfl h, by rintro ⟨⟩, fun h => absurd rfl h, fun h => absurd rfl h⟩
    · intro hin
      rcases hk.listed m hin with ⟨hh, -⟩ | hat
      · exact absurd (hf.symm.trans hh) (some_ne_none t).symm
      · rw [hat] at ht
        cases ht
    · exact nofun
  | @wait m hc =>
    obtain ⟨hnt, ho, hl⟩ := markWaiting_native s t o m
    have hlc := hk.lacking m (by rw [hc]; rfl)
    rcases notifyWait_loc s t o m with hat | hat <;>
      refine hk.moved hnt ho hl rfl (by rw [hc]; rfl) (by rw [hc]; rintro _ ⟨⟩)
        (by rw [hat]; rfl) (by rw [hat]; rintro _ ⟨⟩) (by rw [hat]; nofun) ?_ <;> rw [hat]
    · exact nofun
    · rintro x hx
      obtain rfl := some.inj hx
      exact hlc
  | @stOwner m hc =>
    have hh := hk.inside m (by rw [hc]; rfl)
    refine hk.worked (.of_mutex (by rw [hc]; rfl)) (.of_mutex (m := m) rfl) (fun x hx => ⟨rfl, update_of_ne hx _ _, rfl⟩)
      (fun _ _ => Iff.rfl) hk.nodup ?_ (fun _ => hh) ?_ ?_
    · intro _
      exact ⟨fun _ _ => update_self .., by rintro ⟨⟩, fun _ h => absurd rfl h, fun h => absurd rfl h⟩
    · exact fun hin => absurd hin (hk.notMem_of_acquiring (by rw [hc]; rfl))
    · exact nofun
  | @stLock m hc =>
    have hh := hk.inside m (by rw [hc]; rfl)
    refine hk.worked (.of_mutex (by rw [hc]; rfl)) (.of_mutex (m := m) rfl) (fun x hx => ⟨rfl, rfl, update_of_ne hx _ _⟩)
      (fun _ _ => Iff.rfl) hk.nodup ?_ (fun _ => hh) ?_ ?_
    · intro _
      have ho := (hk.holding m hh).owner (by rw [hc]; rintro ⟨⟩) (by rw [hc]; rintro ⟨⟩)
      exact ⟨fun _ _ => ho, by rintro ⟨⟩, fun _ _ _ _ => update_self .., fun h => absurd rfl h⟩
    · exact fun hin => absurd hin (hk.notMem_of_acquiring (by rw [hc]; rfl))
    · exact nofun
  | @acquired m hc =>
    obtain ⟨hnt, ho, hl⟩ := notifyAcquired_native s t o m
    obtain ⟨how, hid⟩ := notifyAcquired_own s t o m
    have hh := hk.inside m (by rw [hc]; rfl)
    refine hk.worked (.of_mutex (by rw [hc]; rfl)) (hid ▸ .idle m) (fun x _ => by rw [hnt, ho, hl]; exact ⟨rfl, rfl, rfl⟩)
      ?_ (how ▸ nodup_pushOnce hk.nodup m) ?_ (fun _ => hnt ▸ hh) ?_ (by rw [hid]; rintro ⟨⟩)
    · intro x hx
      rw [how, mem_pushOnce]
      exact ⟨fun h => h.resolve_right hx, .inl⟩
    · intro _
      obtain ⟨hos, -, hlo, -⟩ := hk.holding m hh
      refine Settled.holding ⟨ho ▸ hos ?_ ?_, hl ▸ hlo ?_ ?_ ?_ ?_, ?_⟩ (by rw [hid]; rintro ⟨⟩)
      all_goals first | (rw [hc]; rintro ⟨⟩) | rw [how, mem_pushOnce]
      exact .inr rfl
    · exact fun _ => .inl ⟨hnt ▸ hh, by rw [hid]; rintro ⟨⟩⟩
  | @ulClearLock m hc =>
    have hh := hk.inside m (by rw [hc]; rfl)
    have ho := (hk.holding m hh).owner
    refine hk.worked (.of_mutex (by rw [hc]; rfl)) (.of_mutex (m := m) rfl) (fun x hx => ⟨rfl, rfl, update_of_ne hx _ _⟩)
      (fun _ _ => Iff.rfl) hk.nodup ?_ (fun _ => hh) (fun _ => .inl ⟨hh, by rintro ⟨⟩⟩) (by rintro ⟨⟩)
    intro _
    exact ⟨fun _ _ => ho (by rw [hc]; rintro ⟨⟩) (by rw [hc]; rintro ⟨⟩), by rintro ⟨⟩, fun _ _ h => absurd rfl h,
      fun h => absurd rfl h⟩
  | @ulClearOwner m hc =>
    have hh := hk.inside m (by rw [hc]; rfl)
    refine hk.worked (.of_mutex (by rw [hc]; rfl)) (.of_mutex (m := m) rfl) (fun x hx => ⟨rfl, update_of_ne hx _ _, rfl⟩)
      (fun _ _ => Iff.rfl) hk.nodup ?_ (fun _ => hh) (fun _ => .inl ⟨hh, by rintro ⟨⟩⟩) (by rintro ⟨⟩)
    intro _
    exact ⟨fun _ h => absurd rfl h, fun _ => update_self .., fun _ _ _ h => absurd rfl h, fun h => absurd rfl h⟩
  | @ulNative m hc =>
    have hg : update s.native m none m ≠ some t := by
      rw [update_self]
      exact (some_ne_none t).symm
    exact hk.worked (.of_mutex (by rw [hc]; rfl)) (.of_mutex (m := m) rfl) (fun x hx => ⟨update_of_ne hx _ _, rfl, rfl⟩)
      (fun _ _ => Iff.rfl) hk.nodup (fun h => absurd h hg) (by rintro ⟨⟩) (fun _ => .inr rfl) (fun _ => hg)
  | @released m hc =>
    obtain ⟨hnt, ho, hl⟩ := notifyReleased_native s t o m
    obtain ⟨how, hid⟩ := notifyReleased_own s t o m
    have hg := hk.lacking m (by rw [hc]; rfl)
    refine hk.worked (.of_mutex (by rw [hc]; rfl)) (hid ▸ .idle m) (fun x _ => by rw [hnt, ho, hl]; exact ⟨rfl, rfl, rfl⟩)
      ?_ (how ▸ hk.nodup.erase m) (fun h => absurd (hnt ▸ h) hg) (by rw [hid]; rintro ⟨⟩) ?_ (by rw [hid]; rintro ⟨⟩)
    · intro x hx
      rw [how]
      exact mem_erase_of_ne hx
    · intro hin
      rw [how] at hin
      exact absurd hin (hk.nodup.not_mem_erase)
  | short h =>
    obtain ⟨⟨hnt, ho, hl⟩, -, -, how, ⟨⟨m, hc⟩, hat⟩ | ⟨m, hc, hat⟩⟩ := h
    · refine hk.moved hnt ho hl how (by rw [hc]; rfl) (by rw [hc]; rintro _ ⟨⟩) ?_ ?_ ?_ ?_ <;> rw [hat]
      · rfl
      · rintro _ ⟨⟩
      · rintro _ ⟨⟩
      · rintro _ ⟨⟩
    · -- the mutex is not in the list, and is given back
      have hh := hk.inside m (by rw [hc]; rfl)
      obtain ⟨hos, -, hlo, -⟩ := hk.holding m hh
      refine hk.worked (.of_mutex (by rw [hc]; rfl)) (.of_mutex (m := m) (by rw [hat]; rfl))
        (fun x _ => by rw [hnt, ho, hl]; exact ⟨rfl, rfl, rfl⟩) (fun x _ => by rw [how]) (how ▸ hk.nodup) ?_ (fun _ => hnt ▸ hh) ?_ ?_
      · intro _
        refine ⟨fun _ _ => ho ▸ hos ?_ ?_, by rw [hat]; rintro ⟨⟩, fun _ _ _ _ => hl ▸ hlo ?_ ?_ ?_ ?_,
          fun h => absurd (by rw [hat]; rfl) h⟩
        all_goals
          rw [hc]
          rintro ⟨⟩
      · rw [how]
        exact fun hin => absurd hin (hk.notMem_of_acquiring (by rw [hc]; rfl))
      · rw [hat]
        rintro ⟨⟩

/-- A move keeps owners and holders the same. -/
theorem Move.ownerHolds (h : Move t s o s' o') (hk : Knows s t o) (ho : OwnerHolds s) : OwnerHolds s' := by
  cases h with
  | pass _ | stLock _ | ulClearLock _ => exact ho
  | @take m hf _ =>
    intro x u hx
    have hh := ho x u hx
    have hne : x ≠ m := by
      rintro rfl
      exact absurd (hf.symm.trans hh) (some_ne_none u).symm
    exact (update_of_ne hne _ _).trans hh
  | @wait m _ => exact ho.of_registry (markWaiting_native s t o m)
  | @stOwner m hl =>
    intro x u hx
    rcases eq_or_ne x m with rfl | hne
    · obtain rfl : t = u := some.inj ((update_self x (some t) s.owner).symm.trans hx)
      exact hk.inside x (by rw [hl]; rfl)
    · exact ho x u ((update_of_ne hne _ _).symm.trans hx)
  | @acquired m _ => exact ho.of_registry (notifyAcquired_native s t o m)
  | @ulClearOwner m hl =>
    intro x u hx
    rcases eq_or_ne x m with rfl | hne
    · exact absurd ((update_self ..).symm.trans hx) (some_ne_none u).symm
    · exact ho x u ((update_of_ne hne _ _).symm.trans hx)
  | @ulNative m hl =>
    intro x u hx
    have hno := (hk.holding m (hk.inside m (by rw [hl]; rfl))).cleared hl
    have hne : x ≠ m := by
      rintro rfl
      exact absurd (hno.symm.trans hx) (some_ne_none u).symm
    exact (update_of_ne hne _ _).trans (ho x u hx)
  | @released m _ => exact ho.of_registry (notifyReleased_native s t o m)
  | short h => exact ho.of_registry h.fields

/-- Every thread knows its mutexes. -/
structure Aware (c : System T M) : Prop where
  knows : ∀ t, Knows c.shared t (c.own t)
  owners : OwnerHolds c.shared

omit [DecidableEq T] [DecidableEq M] [Fintype T] in
theorem aware_initial (req : T → Bool) : Aware (initial M req) where
  knows _ := ⟨nofun, nofun, nofun, nodup_nil, nofun⟩
  owners := nofun

/-- Every step keeps all threads aware. -/
theorem Aware.step {c : System T M} (h : Aware c) (i : T × LockChoice M) : Aware (Tracker.step c i) where
  knows :=
    have hmv := turn_move i.1 c.shared (c.own i.1) i.2
    Threads.forall_own_step (P := fun t s o => Knows s t o) (hmv.knows (h.knows i.1) h.owners) fun u hu =>
      (h.knows u).other hu (hmv.frame (h.knows i.1))
  owners := (turn_move i.1 c.shared (c.own i.1) i.2).ownerHolds (h.knows i.1) h.owners

/-! ## The search -/

/-- Where the registry leads from a mutex: to the one its owner waits for, unless the owner is the origin. -/
def next (s : Tracker T M) (origin : T) (m : M) : Option M :=
  (s.owners m).bind fun owner => if owner = origin then none else (s.infos owner).bind LockInfo.waiting

omit [DecidableEq M] [Fintype T] in
/-- What the search follows: from a mutex to what its owner waits for. -/
theorem next_eq_some {origin : T} {a b : M} :
    s.next origin a = some b ↔
      ∃ owner, s.owners a = some owner ∧ owner ≠ origin ∧ (s.infos owner).bind LockInfo.waiting = some b := by
  unfold next
  constructor
  · intro h
    obtain ⟨owner, ho, hr⟩ := bind_eq_some_iff.mp h
    by_cases hs : owner = origin
    · rw [if_pos hs] at hr
      cases hr
    · rw [if_neg hs] at hr
      exact ⟨owner, ho, hs, hr⟩
  · rintro ⟨owner, ho, hs, hr⟩
    rw [ho, bind_some, if_neg hs]
    exact hr

variable {origin : T} {owned : List M} {fuel : ℕ} {vm : List M} {vt : List T}

omit [Fintype T] in
/-- A cycle that is reported leads back to a mutex of the thread that asks. -/
theorem hits_of_detectCycle
    (h : s.detectCycle origin owned fuel m vm vt = true) : ∃ n, Hits (s.next origin) (· ∈ owned) n m := by
  induction fuel generalizing m vm vt with
  | zero => cases h
  | succ fuel ih =>
    rw [detectCycle] at h
    split at h
    · cases h
    split at h
    · cases h
    rename_i owner ho
    split at h
    · cases h
    rename_i hs
    split at h
    · cases h
    rename_i wt hw
    have hnx := next_eq_some.mpr ⟨owner, ho, hs, hw⟩
    by_cases hg : wt ∈ owned
    · exact ⟨0, wt, hnx, hg⟩
    · rw [if_neg hg] at h
      split at h
      · cases h
      obtain ⟨n, hn⟩ := ih h
      exact ⟨n + 1, wt, hnx, hg, hn⟩

/-- The search finds what the registry leads to: what it has visited leads there later, if at all, so it stops nowhere on the way, and
the threads do not run out. -/
theorem detectCycle_of_hits {n : ℕ}
    (h : Hits (s.next origin) (· ∈ owned) n m) (hmt : ∀ x ∈ vm, ∀ j ≤ n, ¬Hits (s.next origin) (· ∈ owned) j x)
    (ht : ∀ v ∈ vt, ∀ x, s.owners x = some v → ∀ j ≤ n, ¬Hits (s.next origin) (· ∈ owned) j x)
    (hnd : vt.Nodup) (hf : Fintype.card T < vt.length + fuel) :
    s.detectCycle origin owned fuel m vm vt = true := by
  induction fuel generalizing m n vm vt with
  | zero => exact absurd hf (not_lt.mpr hnd.length_le_card)
  | succ fuel ih =>
    rw [detectCycle, if_neg fun hin => hmt m hin n le_rfl h]
    have hfst : ∃ b, s.next origin m = some b ∧ (b ∈ owned ∨ b ∉ owned ∧ ∃ k, n = k + 1 ∧ Hits (s.next origin) (· ∈ owned) k b) := by
      cases n with
      | zero =>
        obtain ⟨b, hb, hg⟩ := h
        exact ⟨b, hb, .inl hg⟩
      | succ k =>
        obtain ⟨b, hb, hg, hr⟩ := h
        exact ⟨b, hb, .inr ⟨hg, k, rfl, hr⟩⟩
    obtain ⟨b, hb, hr⟩ := hfst
    obtain ⟨owner, ho, hs, hw⟩ := next_eq_some.mp hb
    simp only [ho, if_neg hs, hw]
    rcases hr with hg | ⟨hg, k, rfl, hr⟩
    · exact if_pos hg
    · have hn : owner ∉ vt := fun hin => ht owner hin m ho _ le_rfl h
      rw [if_neg hg, if_neg hn]
      have hl : ∀ x, (∀ j ≤ k + 1, ¬Hits (s.next origin) (· ∈ owned) j x) → ∀ j ≤ k, ¬Hits (s.next origin) (· ∈ owned) j x :=
        fun x hx j hj => hx j (Nat.le_succ_of_le hj)
      refine ih hr ?_ ?_ ?_ ?_
      · intro x hx j hj hh
        rcases mem_append.mp hx with hx | hx
        · exact hl x (hmt x hx) j hj hh
        · obtain rfl := mem_singleton.mp hx
          have := hh.unique h
          omega
      · intro v hv x hx j hj hh
        rcases mem_append.mp hv with hv | hv
        · exact hl x (ht v hv x hx) j hj hh
        · obtain rfl := mem_singleton.mp hv
          -- the mutex of the same owner leads on to the same mutex
          have hsm : s.next origin x = some b := next_eq_some.mpr ⟨v, hx, hs, hw⟩
          have := (hh.of_next_eq (hb.trans hsm.symm)).unique h
          omega
      · refine nodup_append.mpr ⟨hnd, nodup_singleton owner, ?_⟩
        rintro v hv _ hm rfl
        exact hn (mem_singleton.mp hm ▸ hv)
      · rw [length_append, length_singleton]
        omega

end Tracker

end Libft.PThread
