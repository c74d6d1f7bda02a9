import Libft.PThread.Lemmas.Tracking

/-!
# Threads blocked on each other

A thread that has released a native mutex takes back the registry's record of its owner afterwards, and does not look whether the record
is its own by then. A thread that took the mutex in between and is blocked on another one has no record any more, and a thread that asks
for its mutex does not find it. Where no record of a blocked thread is taken back, no thread is ever blocked in a cycle.
-/

namespace Libft.PThread.Tracker

open Relation Function Threads Option List

variable {T M : Type} {t u : T} {s s' : Tracker T M} {o o' : LockOwn M} {m : M}

/-- A thread is blocked on a mutex that another holds. -/
def Blocks (c : System T M) (u v : T) : Prop := ∃ m, (c.own u).loc = .lkBlock m ∧ c.shared.native m = some v

/-- The registry has the mutex that a blocked thread waits for, and the mutexes that it holds. -/
structure Registers (t : T) (s : Tracker T M) (o : LockOwn M) : Prop where
  waiting : ∀ m, o.loc = .lkBlock m → (s.infos t).bind LockInfo.waiting = some m
  owners : ∀ m x, o.loc = .lkBlock m → s.native x = some t → s.owners x = some t

/-- A turn that takes back no record of a blocked thread. -/
def TakesBackOwn (c : System T M) (i : T × LockChoice M) : Prop :=
  ∀ m, (c.own i.1).loc = .released m → (c.own i.1).published = true →
    ∀ u x, u ≠ i.1 → c.shared.owners m = some u → (c.own u).loc ≠ .lkBlock x

variable [DecidableEq T] [DecidableEq M] [Fintype T]

/-! ## Turns -/

/-- A turn of another thread leaves the entry of a thread alone. -/
theorem Move.infos_other (h : Move t s o s' o') (hu : u ≠ t) : s'.infos u = s.infos u := by
  cases h with
  | @wait m _ =>
    rw [show (s.notifyWait t o m).1.infos u = (s.markWaiting t o m).infos u from rfl, markWaiting_eq]
    exact update_of_ne hu ..
  | @acquired m _ =>
    unfold notifyAcquired
    split
    · rfl
    · exact update_of_ne hu ..
  | @released m _ =>
    unfold notifyReleased
    dsimp only
    split
    · rfl
    · exact update_of_ne hu ..
  | short h => exact h.infos u hu
  | _ => rfl

/-- A turn takes back the record of a mutex that another thread holds only after it has released that mutex itself. -/
theorem Move.owners_kept (h : Move t s o s' o') (hk : Knows s t o) (hu : u ≠ t) (hh : s.native m = some u)
    (ho : s.owners m = some u) : s'.owners m = some u ∨ (o.loc = .released m ∧ o.published = true) := by
  have hn : s.native m ≠ some t := fun hmn => hu (some.inj (hh.symm.trans hmn))
  cases h with
  | @wait x hl =>
    refine .inl ((markWaiting_owners s t o x m).trans ?_)
    rw [if_neg, ho]
    intro hin
    rcases hk.listed m hin with hmn | hat
    · exact hn hmn.1
    · rw [hl] at hat
      cases hat
  | @acquired x hl =>
    rcases notifyAcquired_owners s t o x m with hs | ⟨rfl, -⟩
    · exact .inl (hs.trans ho)
    · exact absurd (hk.inside m (by rw [hl]; rfl)) hn
  | @released x hl =>
    rw [notifyReleased_owners]
    split
    · rename_i ht
      exact .inr ⟨ht.2 ▸ hl, ht.1⟩
    · exact .inl ho
  | short h =>
    rcases h.owners m with hs | ⟨-, hin | hl⟩
    · exact .inl (hs.trans ho)
    · rcases hk.listed m hin with hmn | hat
      · exact absurd hmn.1 hn
      · rcases h.places with ⟨⟨y, hl⟩, -⟩ | ⟨y, hl, -⟩ <;> rw [hl] at hat <;> cases hat
    · exact absurd (hk.inside m (by rw [hl]; rfl)) hn
  | _ => exact .inl ho

/-- A turn leaves everything as it is, or does not lead to the native mutex, or is a wait that is let through. -/
theorem Move.blocks (h : Move t s o s' o') : (s' = s ∧ o' = o) ∨ (∀ m, o'.loc ≠ .lkBlock m) ∨
    ∃ m, o.loc = .lkWait m ∧ s.refuses t o m = false ∧ s' = s.markWaiting t o m ∧ o'.loc = .lkBlock m := by
  cases h with
  | @pass l hp =>
    by_cases hs : o.loc = l
    · exact .inl ⟨rfl, by rw [← hs]; rfl⟩
    · refine .inr (.inl fun m hat => hs ?_)
      obtain rfl : l = .lkBlock m := hat
      cases hl : o.loc <;> rw [hl] at hp <;> cases hp
      rfl
  | @wait m hc =>
    cases hr : s.refuses t o m with
    | true =>
      have hat : (s.notifyWait t o m).2.loc = .idle := if_pos hr
      exact .inr (.inl (by rw [hat]; rintro _ ⟨⟩))
    | false =>
      have hat : (s.notifyWait t o m).2.loc = .lkBlock m := if_neg (by rw [hr]; exact Bool.false_ne_true)
      exact .inr (.inr ⟨m, hc, hr, rfl, hat⟩)
  | take | stOwner | stLock | ulClearLock | ulClearOwner | ulNative => exact .inr (.inl (by rintro _ ⟨⟩))
  | @acquired m _ => exact .inr (.inl (by rw [(notifyAcquired_own s t o m).2]; rintro _ ⟨⟩))
  | @released m _ => exact .inr (.inl (by rw [(notifyReleased_own s t o m).2]; rintro _ ⟨⟩))
  | short h =>
    refine .inr (.inl ?_)
    rcases h.places with ⟨-, hat⟩ | ⟨y, -, hat⟩ <;> rw [hat] <;> rintro _ ⟨⟩

/-- A move keeps the records of its thread. -/
theorem Move.registers (h : Move t s o s' o') (hk : Knows s t o) (hr : Registers t s o) : Registers t s' o' := by
  rcases h.blocks with ⟨rfl, rfl⟩ | hnot | ⟨m, hc, -, rfl, hat⟩
  · exact hr
  · exact ⟨fun m hat => absurd hat (hnot m), fun m _ hat => absurd hat (hnot m)⟩
  · constructor
    · intro x hx
      rw [hat] at hx
      cases hx
      rw [markWaiting_eq]
      dsimp only
      rw [update_self]
      rfl
    · intro _ x _ hh
      have hb : s.native x = some t := (congrFun (markWaiting_native s t o m).1 x).symm.trans hh
      have hl := (hk.settled hb (by rw [hc]; rintro ⟨⟩)).listed
      exact (markWaiting_owners s t o m x).trans (if_pos hl)

/-- The threads know their mutexes, the registry knows the blocked ones, and there is no cycle. -/
structure Free (c : System T M) : Prop extends Aware c where
  registers : ∀ t, Registers t c.shared (c.own t)
  acyclic : Acyclic (Blocks c)

variable {c : System T M}

/-- A turn that takes back only its own keeps all records. -/
theorem Free.registers_step (h : Free c) (i : T × LockChoice M) (hi : TakesBackOwn c i) :
    ∀ t, Registers t (step c i).shared ((step c i).own t) := by
  have hmv := turn_move i.1 c.shared (c.own i.1) i.2
  refine forall_own_step (P := Registers) (hmv.registers (h.knows i.1) (h.registers i.1)) fun u hu => ?_
  constructor
  · intro m hat
    have hs : (step c i).shared.infos u = c.shared.infos u := hmv.infos_other hu
    exact (congrArg (·.bind LockInfo.waiting) hs).trans ((h.registers u).waiting m hat)
  · intro m x hat hh
    have hb := ((hmv.frame (h.knows i.1)).native x u hu).mp hh
    have ho := (h.registers u).owners m x hat hb
    rcases hmv.owners_kept (h.knows i.1) hu hb ho with hk | ⟨hl, hp⟩
    · exact hk
    · exact absurd hat (hi x hl hp u m hu ho)

omit [Fintype T] in
/-- The marks of blocked threads lead from a mutex to a mutex of the thread that its holder is blocked on in the end. -/
theorem Free.leads (h : Free c) (hl : (c.own t).loc = .lkWait m) {v : T} (hp : TransGen (Blocks c) v t) :
    ∀ a, c.shared.native a = some v → ∃ b, b ∈ (c.own t).owned ∧
      TransGen (fun x y => (c.shared.markWaiting t (c.own t) m).next t x = some y) a b := by
  -- one blocked thread: from the mutex it holds to the one it waits for
  have he : ∀ {a b : M} {u : T}, c.shared.native a = some u → (c.own u).loc = .lkBlock b →
      (c.shared.markWaiting t (c.own t) m).next t a = some b := by
    intro a b u hh hat
    have hu : u ≠ t := by
      rintro rfl
      rw [hl] at hat
      cases hat
    have hn : a ∉ (c.own t).owned := by
      intro hin
      rcases (h.knows t).listed a hin with hmn | hg
      · exact hu (some.inj (hh.symm.trans hmn.1))
      · rw [hl] at hg
        cases hg
    refine next_eq_some.mpr ⟨u, ?_, hu, ?_⟩
    · rw [markWaiting_owners, if_neg hn]
      exact (h.registers u).owners b a hat hh
    · rw [markWaiting_eq]
      dsimp only
      rw [update_of_ne hu]
      exact (h.registers u).waiting b hat
  induction hp using TransGen.head_induction_on with
  | @single v hb =>
    obtain ⟨b, hat, hmn⟩ := hb
    intro a ha
    exact ⟨b, ((h.knows t).settled hmn (by rw [hl]; rintro ⟨⟩)).listed, .single (he ha hat)⟩
  | @head v w hb _ ih =>
    obtain ⟨b, hat, hh⟩ := hb
    intro a ha
    obtain ⟨x, hx, hp⟩ := ih b hh
    exact ⟨x, hx, .head (he ha hat) hp⟩

/-- A wait that is let through closes no cycle. -/
theorem Free.not_back (h : Free c) (hc : (c.own t).loc = .lkWait m) (hp : c.shared.refuses t (c.own t) m = false) {v : T}
    (hh : c.shared.native m = some v) : ¬ReflTransGen (Blocks c) v t := by
  intro hbc
  rcases reflTransGen_iff_eq_or_transGen.mp hbc with rfl | hpt
  · exact (h.knows t).lacking m (by rw [hc]; rfl) hh
  · obtain ⟨b, hb, hl⟩ := h.leads hc hpt m hh
    obtain ⟨n, hht⟩ : ∃ n, Hits ((c.shared.markWaiting t (c.own t) m).next t) (· ∈ (c.own t).owned) n m := exists_hits hl hb
    have hf : c.shared.refuses t (c.own t) m = true := by
      refine detectCycle_of_hits hht ?_ ?_ nodup_nil ?_
      · exact fun x hx => absurd hx not_mem_nil
      · exact fun x hx => absurd hx not_mem_nil
      · exact Nat.lt_add_left _ (Nat.lt_succ_self _)
    exact absurd (hp.symm.trans hf) Bool.false_ne_true

/-- A turn closes no cycle: who blocks has asked, and the search found none. -/
theorem Free.acyclic_step (h : Free c) (i : T × LockChoice M) : Acyclic (Blocks (step c i)) := by
  have hmv := turn_move i.1 c.shared (c.own i.1) i.2
  have ho : ∀ {u}, u ≠ i.1 → (step c i).own u = c.own u := fun hu => own_step_of_ne hu
  have hsl : (step c i).own i.1 = (turn i.1 c.shared (c.own i.1) i.2).2 := own_step_self
  rcases hmv.blocks with ⟨hs, hown⟩ | hnot | ⟨m, hc, hp, hs, hat⟩
  · refine h.acyclic.of_leads_on fun x y z hxy _ => ?_
    obtain ⟨b, hb, hhl⟩ := hxy
    refine ⟨b, ?_, hs ▸ hhl⟩
    rcases eq_or_ne x i.1 with rfl | hx
    · rw [hsl, hown] at hb
      exact hb
    · rw [ho hx] at hb
      exact hb
  · -- the thread blocks on nothing now, so no way leads over it
    have hl : ∀ {x y}, Blocks (step c i) x y → x ≠ i.1 := by
      rintro _ y ⟨b, hb, -⟩ rfl
      rw [hsl] at hb
      exact hnot b hb
    refine h.acyclic.of_leads_on fun x y z hxy hyz => ?_
    obtain ⟨b, hb, hhl⟩ := hxy
    rw [ho (hl ⟨b, hb, hhl⟩)] at hb
    exact ⟨b, hb, ((hmv.frame (h.knows i.1)).native b y (hl hyz)).mp hhl⟩
  · have hsm : ∀ x y, Blocks (step c i) x y → Blocks c x y ∨ (x = i.1 ∧ c.shared.native m = some y) := by
      rintro x y ⟨b, hb, hhl⟩
      have hnt : (step c i).shared.native = c.shared.native :=
        (congrArg native hs).trans (markWaiting_native c.shared i.1 (c.own i.1) m).1
      have hbf : c.shared.native b = some y := (congrFun hnt b).symm.trans hhl
      rcases eq_or_ne x i.1 with rfl | hx
      · rw [hsl, hat] at hb
        cases hb
        exact .inr ⟨rfl, hbf⟩
      · rw [ho hx] at hb
        exact .inl ⟨b, hb, hbf⟩
    cases hh : c.shared.native m with
    | none =>
      refine h.acyclic.of_leads_on fun x y z hxy _ => ?_
      rcases hsm x y hxy with hd | ⟨-, hy⟩
      · exact hd
      · exact absurd (hh.symm.trans hy) (some_ne_none y).symm
    | some v =>
      refine h.acyclic.add_edge (fun x y hxy => ?_) (h.not_back hc hp hh)
      exact (hsm x y hxy).imp_right fun hn => ⟨hn.1, some.inj (hn.2.symm.trans hh)⟩

/-- Every such turn keeps the system free of cycles. -/
theorem Free.step (h : Free c) (i : T × LockChoice M) (hi : TakesBackOwn c i) : Free (step c i) :=
  ⟨h.toAware.step i, h.registers_step i hi, h.acyclic_step i⟩

omit [DecidableEq T] [DecidableEq M] [Fintype T] in
theorem free_initial (req : T → Bool) : Free (initial M req) where
  toAware := aware_initial req
  registers t := ⟨by rintro _ ⟨⟩, by rintro _ _ ⟨⟩⟩
  acyclic t hc := by
    obtain ⟨u, -, m, -, hh⟩ := TransGen.tail'_iff.mp hc
    cases hh

/-- In a run that takes back no record of a blocked thread, no threads are ever blocked on each other's mutexes in a cycle. -/
theorem run_no_deadlock {required : T → Bool} {turns : List (T × LockChoice M)}
    (h : Meets step TakesBackOwn (initial M required) turns) (t : T) : ¬TransGen (Blocks (run required turns)) t t := by
  have hf : Free (run required turns) := h.invariant (fun _ i hc hi => hc.step i hi) (free_initial required)
  exact hf.acyclic t

/-! ## A deadlock -/

/-- A thread that is blocked on a mutex somebody holds stays as it is, and so does everything else in its turn. -/
theorem Aware.blocks_step (h : Aware c) (i : T × LockChoice M) {x y z : T} (hxy : Blocks c x y) (hyz : Blocks c y z) :
    Blocks (Tracker.step c i) x y := by
  have hid : ∀ {v w}, Blocks c v w → v = i.1 → Tracker.step c i = c := by
    rintro _ w ⟨b, hat, hh⟩ rfl
    have ht : turn i.1 c.shared (c.own i.1) i.2 = (c.shared, c.own i.1) := by
      cases i.2 with
      | call _ => rw [turn, hat, if_neg (by rintro ⟨⟩)]
      | go _ => simp [turn, go, hat, hh]
      | short _ => simp [turn, hat]
    unfold Tracker.step Threads.step
    rw [ht, update_eq_self]
  rcases eq_or_ne x i.1 with hx | hx
  · rw [hid hxy hx]
    exact hxy
  · rcases eq_or_ne y i.1 with hy | hy
    · rw [hid hyz hy]
      exact hxy
    · obtain ⟨b, hat, hh⟩ := hxy
      have hmv := turn_move i.1 c.shared (c.own i.1) i.2
      refine ⟨b, ?_, ((hmv.frame (h.knows i.1)).native b y hy).mpr hh⟩
      rw [show (Tracker.step c i).own x = c.own x from own_step_of_ne hx]
      exact hat

/-- A cycle of blocked threads is there for good. -/
theorem run_stays_blocked {req : T → Bool} {ts : List (T × LockChoice M)} (h : ¬Acyclic (Blocks (run req ts)))
    (more : List (T × LockChoice M)) : ¬Acyclic (Blocks (run req (ts ++ more))) := by
  have haw : Aware (run req ts) := foldlRecOn ts _ (aware_initial req) fun _ hc i _ => hc.step i
  have he : Aware (more.foldl step (run req ts)) ∧ ¬Acyclic (Blocks (more.foldl step (run req ts))) :=
    foldlRecOn (motive := fun c => Aware c ∧ ¬Acyclic (Blocks c)) more _ ⟨haw, h⟩ fun c hc i _ =>
      ⟨hc.1.step i, fun ha => hc.2 (ha.of_leads_on fun x y z => hc.1.blocks_step i)⟩
  rw [run, foldl_append]
  exact he.2

/-- Two threads that ask for each other's mutex; the second one is refused. -/
def crossedTurns : List (Name × LockChoice Name) :=
  List.flatten [callTurns .a (.lock .a) 7, callTurns .b (.lock .b) 7, callTurns .a (.lock .b) 4, callTurns .b (.lock .a) 4]

instance TakesBackOwn.decidable [Fintype M] (c : System T M) (i : T × LockChoice M) : Decidable (TakesBackOwn c i) :=
  inferInstanceAs (Decidable (∀ _, _ → _ → ∀ _ _, _ → _ → _))

/-- Two threads lock two mutexes in opposite orders: the second is refused. -/
theorem run_no_deadlock_crossed : ((run (fun _ => false) crossedTurns).own .a).loc = .lkBlock .b ∧
    ((run (fun _ => false) crossedTurns).own .b).loc = .idle ∧ ¬TransGen (Blocks (run (fun _ => false) crossedTurns)) .a .a :=
  ⟨by decide +kernel, by decide +kernel, run_no_deadlock (by decide +kernel) _⟩

/-- The second thread waited for the mutex 0 and released it, but has not recorded that. The first takes 0 and is blocked on 1, which the
third has; then the second takes back the record of 0, and the third asks for 0. -/
def lostTurns : List (Name × LockChoice Name) :=
  List.flatten [callTurns .a (.lock .a) 7, callTurns .b (.lock .a) 4, callTurns .a (.unlock .a) 6, List.replicate 4 (.b, .go true),
    callTurns .b (.unlock .a) 5, callTurns .a (.lock .a) 7, callTurns .c (.lock .b) 7, callTurns .a (.lock .b) 4, [(.b, .go true)],
    callTurns .c (.lock .a) 4]

instance Blocks.decidable [Fintype M] (c : System T M) (u v : T) : Decidable (Blocks c u v) := inferInstanceAs (Decidable (∃ _, _))

/-- The first and the third are blocked on each other then, and stay so. -/
theorem run_deadlocks : Blocks (run (fun _ => false) lostTurns) .a .c ∧ Blocks (run (fun _ => false) lostTurns) .c .a ∧
    ∀ more, ¬Acyclic (Blocks (run (fun _ => false) (lostTurns ++ more))) := by
  have ht : Blocks (run (fun _ => false) lostTurns) .a .c := by decide +kernel
  have hb : Blocks (run (fun _ => false) lostTurns) .c .a := by decide +kernel
  exact ⟨ht, hb, run_stays_blocked fun ha => ha .a (.tail (.single ht) hb)⟩

end Libft.PThread.Tracker
