import Libft.PThread.Lemmas.Tracking

/-!
# A wait that is refused

`notify_wait` marks the thread as waiting before it searches for a cycle, and a `lock` that is then refused leaves the mark. A thread of
the library that has not waited yet records its mutexes in the registry and does not take the records back. Both leave what is not so in
the registry, and the search may follow it to a cycle that is none. Where neither is met, every wait that is refused closes a cycle of
threads that wait for each other's mutexes.
-/

namespace Libft.PThread.Tracker

open Relation Option Threads Function

variable {T M : Type} {t u : T} {s s' : Tracker T M} {o o' : LockOwn M} {m : M}

/-- A thread waits for another: it is blocked on a mutex that the other holds, or is now asking for it. -/
def WaitsFor (c : System T M) (u v : T) : Prop :=
  ∃ m, ((c.own u).loc = .lkWait m ∨ (c.own u).loc = .lkBlock m) ∧ c.shared.native m = some v

/-- The registry's record of the owner of a mutex: a thread that holds it and has recorded that, or that is about to record that it has
released it. -/
def Records (t : T) (s : Tracker T M) (o : LockOwn M) : Prop :=
  ∀ m, s.owners m = some t → (s.native m = some t ∧ o.loc.acquiring ≠ some m) ∨ o.loc = .released m

/-- When a thread searches for a cycle, the marks of the others are of threads that wait for the mutex, or have just taken it. -/
def MarksFresh (c : System T M) (t : T) : Prop :=
  ∀ u x, u ≠ t → (c.shared.infos u).bind LockInfo.waiting = some x → (c.own u).loc = .lkBlock x ∨ (c.own u).loc.acquiring = some x

/-- A turn that finds the registry as it should be: before a search no stale mark of another thread, and no record of a mutex that an
unpublished thread has released. -/
def Tidy (c : System T M) (i : T × LockChoice M) : Prop :=
  (∀ m, (c.own i.1).loc = .lkWait m → MarksFresh c i.1) ∧
    ∀ m, (c.own i.1).loc = .released m → (c.own i.1).published = false → c.shared.owners m ≠ some i.1

variable [DecidableEq T] [DecidableEq M]

/-- A thread is about to be told by `lock` that the mutex is locked, as its wait would close a cycle. -/
def Refused [Fintype T] (c : System T M) (t : T) (m : M) : Prop :=
  (c.own t).loc = .lkWait m ∧ c.shared.refuses t (c.own t) m = true

/-! ## The records -/

variable [Fintype T]

/-- A turn writes no record for another thread. -/
theorem Move.owners_other (h : Move t s o s' o') (hu : u ≠ t) (hm : s'.owners m = some u) : s.owners m = some u := by
  cases h with
  | @wait x _ =>
    have heq := (markWaiting_owners s t o x m).symm.trans hm
    split at heq
    · exact absurd (some.inj heq).symm hu
    · exact heq
  | @acquired x _ =>
    rcases notifyAcquired_owners s t o x m with hs | ⟨-, hsl⟩
    · exact hs.symm.trans hm
    · exact absurd (some.inj (hsl.symm.trans hm)).symm hu
  | @released x _ =>
    rw [notifyReleased_owners] at hm
    exact (Option.ite_none_left_eq_some.mp hm).2
  | short h =>
    rcases h.owners m with hs | ⟨hsl, -⟩
    · exact hs.symm.trans hm
    · exact absurd (some.inj (hsl.symm.trans hm)).symm hu
  | _ => exact hm

/-- A move keeps the records of its thread exact. -/
theorem Move.records (h : Move t s o s' o') (hk : Knows s t o) (hrc : Records t s o)
    (hr : ∀ m, o.loc = .released m → o.published = false → s.owners m ≠ some t) : Records t s' o' := by
  intro x hx
  -- a record of before, when the thread was not about to take one back
  have hb : s.owners x = some t → (∀ m, o.loc ≠ .released m) → s.native x = some t ∧ o.loc.acquiring ≠ some x := by
    intro hx hn
    rcases hrc x hx with hh | hat
    · exact hh
    · exact absurd hat (hn x)
  cases h with
  | pass hps =>
    rcases hps.places with hs | ⟨-, hn, ha, -⟩
    · rw [← hs]
      exact hrc x hx
    · exact .inl ⟨(hb hx hn).1, by rw [show (o.goto _).loc.acquiring = none from ha]; rintro ⟨⟩⟩
  | @take m hf ht =>
    obtain ⟨hh, -⟩ := hb hx (by rintro y hat; rw [hat] at ht; cases ht)
    have hne : x ≠ m := by
      rintro rfl
      exact absurd (hf.symm.trans hh) (some_ne_none t).symm
    exact .inl ⟨(update_of_ne hne _ _).trans hh, fun h => hne (some.inj h).symm⟩
  | @wait m hl =>
    have hn : ∀ y, o.loc ≠ .released y := by
      rw [hl]
      rintro _ ⟨⟩
    have hh : s.native x = some t := by
      have heq := (markWaiting_owners s t o m x).symm.trans hx
      split at heq
      · rename_i hin
        rcases hk.listed x hin with hh | hat
        · exact hh.1
        · exact absurd hat (hn x)
      · exact (hb heq hn).1
    refine .inl ⟨(congrFun (markWaiting_native s t o m).1 x).trans hh, ?_⟩
    rcases notifyWait_loc s t o m with hat | hat <;> rw [hat] <;> rintro ⟨⟩
  | @stOwner _ hl | @stLock _ hl =>
    obtain ⟨hh, hn⟩ := hb hx (by rw [hl]; rintro _ ⟨⟩)
    rw [hl] at hn
    exact .inl ⟨hh, hn⟩
  | @acquired m hl =>
    have hh : s.native x = some t := by
      rcases notifyAcquired_owners s t o m x with hs | ⟨rfl, -⟩
      · exact (hb (hs.symm.trans hx) (by rw [hl]; rintro _ ⟨⟩)).1
      · exact hk.inside x (by rw [hl]; rfl)
    exact .inl ⟨(congrFun (notifyAcquired_native s t o m).1 x).trans hh, by rw [(notifyAcquired_own s t o m).2]; rintro ⟨⟩⟩
  | @ulClearLock _ hl | @ulClearOwner _ hl => exact .inl ⟨(hb hx (by rw [hl]; rintro _ ⟨⟩)).1, by rintro ⟨⟩⟩
  | @ulNative m hl =>
    obtain ⟨hh, -⟩ := hb hx (by rw [hl]; rintro _ ⟨⟩)
    rcases eq_or_ne x m with rfl | hne
    · exact .inr rfl
    · exact .inl ⟨(update_of_ne hne _ _).trans hh, by rintro ⟨⟩⟩
  | @released m hl =>
    rw [notifyReleased_owners] at hx
    split at hx
    · cases hx
    rename_i hkp
    rcases hrc x hx with ⟨hh, -⟩ | hat
    · exact .inl ⟨(congrFun (notifyReleased_native s t o m).1 x).trans hh, by rw [(notifyReleased_own s t o m).2]; rintro ⟨⟩⟩
    · -- the record of the mutex itself: it was taken back, or was not there
      obtain rfl : m = x := by
        rw [hl] at hat
        cases hat
        rfl
      have hpb : o.published = false := by
        by_contra hp
        exact hkp ⟨eq_true_of_ne_false hp, rfl⟩
      exact absurd hx (hr m hl hpb)
  | short h =>
    have hn : ∀ y, o.loc ≠ .released y := by
      rcases h.places with ⟨⟨y, hl⟩, -⟩ | ⟨y, hl, -⟩ <;> rw [hl] <;> rintro _ ⟨⟩
    have ha : o'.loc.acquiring ≠ some x := by
      rcases h.places with ⟨-, hat⟩ | ⟨y, -, hat⟩ <;> rw [hat] <;> rintro ⟨⟩
    refine .inl ⟨(congrFun h.fields.1 x).trans ?_, ha⟩
    rcases h.owners x with hs | ⟨-, hin | hl⟩
    · exact (hb (hs.symm.trans hx) hn).1
    · exact ((hk.listed x hin).resolve_right (hn x)).1
    · exact hk.inside x (by rw [hl]; rfl)

/-! ## Runs -/

/-- The threads know their mutexes, and the registry has records of what is held. -/
structure Recorded (c : System T M) : Prop extends Aware c where
  records : ∀ t, Records t c.shared (c.own t)

variable {c : System T M}

/-- A tidy turn keeps all records exact. -/
theorem Recorded.step (h : Recorded c) (i : T × LockChoice M) (hi : Tidy c i) : Recorded (step c i) where
  toAware := h.toAware.step i
  records := by
    have hmv := turn_move i.1 c.shared (c.own i.1) i.2
    refine forall_own_step (P := Records) (hmv.records (h.knows i.1) (h.records i.1) hi.2) fun u hu m hm => ?_
    refine (h.records u m (hmv.owners_other hu hm)).imp_left fun hh => ⟨?_, hh.2⟩
    exact ((hmv.frame (h.knows i.1)).native m u hu).mpr hh.1

omit [DecidableEq T] [DecidableEq M] [Fintype T] in
theorem recorded_initial (req : T → Bool) : Recorded (initial M req) where
  toAware := aware_initial req
  records t _ hm := absurd hm (some_ne_none t).symm

omit [Fintype T] in
/-- From a mutex that leads to one of the origin's, along fresh marks, the holders wait for each other up to the origin. -/
theorem Recorded.chain (h : Recorded c) (hl : (c.own t).loc = .lkWait m) (hf : MarksFresh c t) {n : ℕ} {x : M}
    (hht : Hits ((c.shared.markWaiting t (c.own t) m).next t) (· ∈ (c.own t).owned) n x) :
    ∃ v, c.shared.native x = some v ∧ (∃ y, (c.own v).loc = .lkBlock y) ∧ TransGen (WaitsFor c) v t := by
  -- one mark: the owner holds the mutex, and waits for the next one
  have hmr : ∀ {x y : M}, (c.shared.markWaiting t (c.own t) m).next t x = some y →
      ∃ v, c.shared.owners x = some v ∧ v ≠ t ∧ ((c.own v).loc = .lkBlock y ∨ (c.own v).loc.acquiring = some y) := by
    intro x y hnx
    obtain ⟨v, ho, hv, hwt⟩ := next_eq_some.mp hnx
    rw [markWaiting_eq] at ho hwt
    dsimp only at ho hwt
    rw [update_of_ne hv] at hwt
    split at ho
    · exact absurd (some.inj ho).symm hv
    · exact ⟨v, ho, hv, hf v y hv hwt⟩
  have hb : ∀ {x y v}, c.shared.owners x = some v → (c.own v).loc = .lkBlock y → c.shared.native x = some v := by
    intro x y v ho hat
    rcases h.records v x ho with hh | hg
    · exact hh.1
    · rw [hat] at hg
      cases hg
  induction n generalizing x with
  | zero =>
    obtain ⟨y, hnx, how⟩ := hht
    obtain ⟨v, ho, hv, hat | ha⟩ := hmr hnx
    all_goals
      have hmn : c.shared.native y = some t := by
        rcases (h.knows t).listed y how with hh | hg
        · exact hh.1
        · rw [hl] at hg
          cases hg
    · exact ⟨v, hb ho hat, ⟨y, hat⟩, .single ⟨y, .inr hat, hmn⟩⟩
    · have ht := (h.knows v).inside y (LockLoc.inside_of_acquiring ha)
      exact absurd (some.inj (ht.symm.trans hmn)) hv
  | succ n ih =>
    obtain ⟨y, hnx, -, hr⟩ := hht
    obtain ⟨w, hh, ⟨z, hw⟩, hc⟩ := ih hr
    obtain ⟨v, ho, hv, hat | ha⟩ := hmr hnx
    · exact ⟨v, hb ho hat, ⟨y, hat⟩, .head ⟨y, .inr hat, hh⟩ hc⟩
    · -- who has just taken the mutex is not blocked
      have ht := (h.knows v).inside y (LockLoc.inside_of_acquiring ha)
      obtain rfl := some.inj (ht.symm.trans hh)
      rw [hw] at ha
      cases ha

/-- In a run that finds the registry as it should be, a wait is refused only if there is a cycle of threads that wait for each other,
from the caller back to it. -/
theorem run_refuses_cycles {required : T → Bool} {turns : List (T × LockChoice M)} {ch : LockChoice M}
    (h : Meets step Tidy (initial M required) (turns ++ [(t, ch)])) (hrefused : Refused (run required turns) t m) :
    TransGen (WaitsFor (run required turns)) t t := by
  have hr : Recorded (run required turns) := h.left.invariant (fun _ i hc hi => hc.step i hi) (recorded_initial required)
  obtain ⟨hl, hrf⟩ := hrefused
  obtain ⟨n, hh⟩ := hits_of_detectCycle hrf
  obtain ⟨v, hhl, -, hch⟩ := hr.chain hl (h.last.1 m hl) hh
  exact .head ⟨m, .inl hl, hhl⟩ hch

/-- Two threads that each have a mutex; the first is blocked on the other's, and the second asks for the first's. -/
def crossTurns : List (Name × LockChoice Name) :=
  List.flatten [callTurns .a (.lock .a) 7, callTurns .b (.lock .b) 7, callTurns .a (.lock .b) 4, callTurns .b (.lock .a) 3]

instance MarksFresh.decidable [Fintype M] (c : System T M) (t : T) : Decidable (MarksFresh c t) :=
  inferInstanceAs (Decidable (∀ _ _, _ → _ → _))

instance Tidy.decidable [Fintype M] (c : System T M) (i : T × LockChoice M) : Decidable (Tidy c i) :=
  inferInstanceAs (Decidable (_ ∧ _))

instance Refused.decidable (c : System T M) (t : T) (m : M) : Decidable (Refused c t m) := inferInstanceAs (Decidable (_ ∧ _))

instance WaitsFor.decidable [Fintype M] (c : System T M) (u v : T) : Decidable (WaitsFor c u v) := inferInstanceAs (Decidable (∃ _, _))

/-- Two threads lock two mutexes in opposite orders: the refusal names a cycle. -/
theorem run_refuses_cycles_cross : Refused (run (fun _ => false) crossTurns) .b .a ∧
    TransGen (WaitsFor (run (fun _ => false) crossTurns)) .b .b := by
  have hr : Refused (run (fun _ => false) crossTurns) .b .a := by decide +kernel
  have ht : Meets step Tidy (initial Name fun _ : Name => false) (crossTurns ++ [(.b, .go true)]) := by decide +kernel
  exact ⟨hr, run_refuses_cycles ht hr⟩

/-- The first thread has the mutex 0 and the second 1 and 2. The first waits for 1; the second asks for 0 and is refused. It goes on and
releases 1, the first gets it and asks for 2. -/
def staleTurns : List (Name × LockChoice Name) :=
  List.flatten [callTurns .a (.lock .a) 7, callTurns .b (.lock .b) 7, callTurns .b (.lock .c) 7, callTurns .a (.lock .b) 4,
    callTurns .b (.lock .a) 4, callTurns .b (.unlock .b) 6, List.replicate 4 (.a, .go true), callTurns .a (.lock .c) 3]

/-- The first is refused then, and the second, which has 2, is in no call: nobody waits for a mutex of the first. -/
theorem run_refuses_stale : Refused (run (fun _ => false) staleTurns) .a .c ∧ ((run (fun _ => false) staleTurns).own .b).loc = .idle ∧
    ¬TransGen (WaitsFor (run (fun _ => false) staleTurns)) .a .a := by
  have hno : ∀ u, ¬WaitsFor (run (fun _ => false) staleTurns) u .a := by decide +kernel
  refine ⟨by decide +kernel, by decide +kernel, fun hc => ?_⟩
  obtain ⟨u, -, hl⟩ := TransGen.tail'_iff.mp hc
  exact hno u hl

end Libft.PThread.Tracker
