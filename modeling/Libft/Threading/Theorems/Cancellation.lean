import Libft.Threading.Lemmas.Scheduled

/-!
# Tasks that are cancelled

`cancel` sets the flag of the task and takes its entry out of the heap, if it is there. A task whose time had come may have left the heap
by then: it is in the hand of the timer thread, in the queue for the workers or with a worker, and the flag is not read there. So it may
still start, as often as it is in these places; it does not come back to them.
-/

namespace Libft.Threading

open Function List Option Threads Bool ScheduledTask Heap
open Option (some)

variable {T K : Type}

namespace SchedLoc

/-- The task whose entry a thread has in its hand. -/
def hand : SchedLoc K → Option K
  | .tCheck e | .tUnlock e _ | .tPush e | .tDirect e | .tRunning e | .tRelock e | .tAgain e | .tRepush e => some e.state
  | .cLock e _ | .cPush e _ => some e.state
  | _ => none

/-- The task that a thread is making. -/
def making : SchedLoc K → Option K
  | .cLock e _ | .cPush e _ => some e.state
  | .cUnlock k _ | .cDirect k => some k
  | _ => none

/-- The task that the timer is about to put into the heap again. -/
def repeating : SchedLoc K → Option K
  | .tRepush e => some e.state
  | _ => none

/-- A place where a thread has the mutex, whatever the timer does. -/
def holds : SchedLoc K → Bool
  | .tAgain _ | .tRepush _ | .xScan _ => true
  | _ => false

/-- The task that a thread is about to start: the timer has it in its hand and past the check, or a worker. -/
def starting : SchedLoc K → Option K
  | .tUnlock e _ | .tPush e | .tDirect e => some e.state
  | .wRun k => some k
  | _ => none

end SchedLoc

namespace Scheduler

variable {t u : T} {s s' : Scheduler T K} {o o' : SchedOwn K} {k : K}

/-- The tasks in the heap. -/
def states (s : Scheduler T K) : List K := s.heap.map ScheduledTask.state

/-! ## Where the entries are -/

/-- What a turn does to the entry in the thread's hand and those in the heap. -/
inductive Transfer (s : Scheduler T K) (o : SchedOwn K) (s' : Scheduler T K) (o' : SchedOwn K) : Prop
  | keeps : s'.states = s.states → (o'.loc.hand = o.loc.hand ∨ o'.loc.hand = none) → s'.used = s.used → Transfer s o s' o'
  | takes (k : K) : s.states ~ k :: s'.states → o'.loc.hand = some k → s'.used = s.used → Transfer s o s' o'
  | puts (k : K) : s'.states ~ k :: s.states → o.loc.hand = some k → (o.loc.repeating = some k ∨ o.loc.making = some k) →
      o'.loc.hand = none → s'.used = s.used → Transfer s o s' o'
  | drops (k : K) : s.states ~ k :: s'.states → o'.loc.hand = none → s'.used = s.used → Transfer s o s' o'
  | makes (k : K) : s'.states = s.states → o'.loc.hand = some k → s.used k = false → s'.used k = true →
      (∀ x, s.used x = true → s'.used x = true) → Transfer s o s' o'

variable {l l' : SchedLoc K}

theorem Passes.hand (h : Passes s l l') : l'.hand = l.hand ∨ l'.hand = none := by
  cases h with
  | stay | take | directNot | again | repush => exact .inl rfl
  | _ => exact .inr rfl

theorem Enters.hand (h : Enters l l') : l'.hand = l.hand := by
  cases h <;> rfl

theorem Leaves.hand (h : Leaves l l') : l'.hand = l.hand := by
  cases h <;> rfl

theorem Passes.making (h : Passes s l l') : l'.making = l.making := by
  cases h <;> rfl

theorem Enters.making (h : Enters l l') : l'.making = l.making := by
  cases h <;> rfl

theorem Leaves.making (h : Leaves l l') : l'.making = l.making := by
  cases h <;> rfl

/-- The timer does not take a task past the check whose flag is set. -/
theorem Passes.starting (h : Passes s l l') (hk : l'.starting = some k) (hc : s.cancelled k = true) : l.starting = some k := by
  cases h with
  | stay => exact hk
  | take e d hn =>
    obtain rfl := some.inj hk
    exact absurd (hn.symm.trans hc) false_ne_true
  | _ => cases hk

theorem Enters.starting (h : Enters l l') : l'.starting = none := by
  cases h <;> rfl

theorem Leaves.starting (h : Leaves l l') : l'.starting = l.starting ∨ l'.starting = none := by
  cases h with
  | direct | queue => exact .inl rfl
  | _ => exact .inr rfl

/-- A key that is not in use is not that of a task. -/
theorem ne_of_unused {x : K} (hk : s.used k = false) (hx : s.used x = true) : x ≠ k := by
  rintro rfl
  exact absurd (hk.symm.trans hx) false_ne_true

variable [DecidableEq K]

/-- What the scan of `cancel` takes out of the heap. -/
theorem scan_states (s : Scheduler T K) (k : K) : (k ∉ s.states ∧ s.scan k = s) ∨ (k ∈ s.states ∧ s.states ~ k :: (s.scan k).states) := by
  unfold scan findState
  split
  · rename_i hlt
    have hf : (s.heap[s.heap.findIdx fun e => e.state = k]).state = k := by
      simpa using findIdx_getElem (w := hlt)
    right
    have hp := (removeIndex_perm hlt).map state
    rw [map_cons, hf] at hp
    exact ⟨hp.subset mem_cons_self, hp.symm⟩
  · rename_i hge
    left
    refine ⟨fun hin => hge ?_, rfl⟩
    obtain ⟨e, he, hs⟩ := mem_map.mp hin
    exact findIdx_lt_length_of_exists ⟨e, he, by simpa using hs⟩

/-- What a scan leaves as it is. -/
theorem scan_fields (s : Scheduler T K) (k : K) : (s.scan k).cancelled = s.cancelled ∧
    (s.scan k).used = s.used ∧ (s.scan k).issued = s.issued ∧ (s.scan k).queue = s.queue ∧ (s.scan k).starts = s.starts := by
  unfold scan
  split <;> exact ⟨rfl, rfl, rfl, rfl, rfl⟩

variable [DecidableEq T]

/-- A move passes tasks on between heap, hands, queue and starts. -/
theorem Move.transfer (h : Move t s o s' o') : Transfer s o s' o' := by
  cases h with
  | pass hp => exact .keeps rfl hp.hand rfl
  | lock _ hin => exact .keeps rfl (.inl hin.hand) rfl
  | release ho => exact .keeps rfl (.inl ho.hand) rfl
  | @pop e he hloc hpop => exact .takes e.state ((pop_perm hpop).map state).symm rfl rfl
  | queue hloc => exact .keeps rfl (.inl (by rw [hloc]; rfl)) rfl
  | calls hloc =>
    refine .keeps rfl (.inl ?_) rfl
    rcases hloc with hloc | hloc <;> rw [hloc] <;> rfl
  | @repush e now hloc =>
    exact .puts e.state ((push_perm s.heap _).map state) (by rw [hloc]; rfl) (.inl (by rw [hloc]; rfl)) rfl rfl
  | @make e once _ hu =>
    refine .makes e.state rfl rfl hu (update_self ..) fun x hx => ?_
    by_cases hxe : x = e.state
    · rw [hxe]
      exact update_self ..
    · exact (update_of_ne hxe _ _).trans hx
  | @push e once hloc =>
    exact .puts e.state ((push_perm s.heap e).map state) (by rw [hloc]; rfl) (.inr (by rw [hloc]; rfl)) rfl rfl
  | @scan k hloc =>
    have hus := (scan_fields s k).2.1
    rcases scan_states s k with ⟨-, hs⟩ | ⟨-, hpr⟩
    · exact .keeps (by rw [hs]) (.inr rfl) hus
    · exact .drops k hpr rfl hus
  | issue _ | makeCalls _ | ask _ _ | flag _ | cancelled _ | fetch _ _ | work _ => exact .keeps rfl (.inr rfl) rfl
  | stop => exact .keeps rfl (.inl rfl) rfl

/-- A task in the hand of a thread has been made, and has no entry in the heap. -/
def HandApart (_ : T) (s : Scheduler T K) (o : SchedOwn K) : Prop := ∀ k, o.loc.hand = some k → k ∉ s.states ∧ s.used k = true

/-- A task has one entry at most: in the heap, or in the hand of a thread. -/
structure Entries (c : System T K) : Prop where
  nodup : c.shared.states.Nodup
  unique : Unique (fun o : SchedOwn K => o.loc.hand) c
  apart : ∀ t k, (c.own t).loc.hand = some k → k ∉ c.shared.states ∧ c.shared.used k = true
  used : ∀ k ∈ c.shared.states, c.shared.used k = true

variable {c : System T K}

/-- Every turn keeps a task in one place. -/
theorem Entries.step (h : Entries c) (i : T × SchedChoice K) : Entries (step c i) := by
  show Entries (Threads.step turn c i)
  have hs : (Threads.step turn c i).shared = (turn i.1 c.shared (c.own i.1) i.2).1 := rfl
  cases (turn_move i.1 c.shared (c.own i.1) i.2).transfer with
  | keeps hst hkp hus =>
    have hb : ∀ k, (turn i.1 c.shared (c.own i.1) i.2).2.loc.hand = some k → (c.own i.1).loc.hand = some k := by
      intro k hk
      rcases hkp with hsm | hno
      · exact hsm.symm.trans hk
      · exact absurd hk (eq_none_iff_forall_ne_some.mp hno k)
    refine ⟨hst ▸ h.nodup, ?_, ?_, by rw [hs, hst, hus]; exact h.used⟩
    · exact h.unique.step fun k hk u hu hku => hu (h.unique u i.1 k hku (hb k hk))
    · refine forall_own_step (P := HandApart) (fun k hk => ?_) fun u _ k hk => ?_ <;> rw [hs, hst, hus]
      · exact h.apart i.1 k (hb k hk)
      · exact h.apart u k hk
  | takes k hp hk hus =>
    have hin : k ∈ c.shared.states := hp.symm.subset mem_cons_self
    have hsub : (Threads.step turn c i).shared.states ⊆ c.shared.states := fun x hx => hp.symm.subset (mem_cons_of_mem k hx)
    obtain ⟨hn, hnd⟩ := nodup_cons.mp (hp.nodup h.nodup)
    refine ⟨hnd, ?_, ?_, fun x hx => by rw [hs, hus]; exact h.used x (hsub hx)⟩
    · refine h.unique.step fun x hx u _ hux => (h.apart u x hux).1 ?_
      obtain rfl := some.inj (hk.symm.trans hx)
      exact hin
    · refine forall_own_step (P := HandApart) (fun x hx => ?_) fun u _ x hx => ?_ <;> rw [hs, hus]
      · obtain rfl := some.inj (hk.symm.trans hx)
        exact ⟨hn, h.used k hin⟩
      · exact ⟨fun hin => (h.apart u x hx).1 (hsub hin), (h.apart u x hx).2⟩
  | puts k hp hb _ ha hus =>
    obtain ⟨hn, hk⟩ := h.apart i.1 k hb
    have hno := eq_none_iff_forall_ne_some.mp ha
    refine ⟨hp.symm.nodup (nodup_cons.mpr ⟨hn, h.nodup⟩), ?_, ?_, ?_⟩
    · exact h.unique.step fun x hx => absurd hx (hno x)
    · refine forall_own_step (P := HandApart) (fun x hx => absurd hx (hno x)) fun u hne x hx => ?_
      rw [hs, hus]
      refine ⟨fun hin => ?_, (h.apart u x hx).2⟩
      rcases mem_cons.mp (hp.subset hin) with rfl | hin
      · exact hne (h.unique u i.1 x hx hb)
      · exact (h.apart u x hx).1 hin
    · intro x hx
      rw [hs, hus]
      rcases mem_cons.mp (hp.subset hx) with rfl | hx
      · exact hk
      · exact h.used x hx
  | drops k hp hk hus =>
    have hsub : (Threads.step turn c i).shared.states ⊆ c.shared.states := fun x hx => hp.symm.subset (mem_cons_of_mem k hx)
    have hno := eq_none_iff_forall_ne_some.mp hk
    refine ⟨(nodup_cons.mp (hp.nodup h.nodup)).2, ?_, ?_, fun x hx => by rw [hs, hus]; exact h.used x (hsub hx)⟩
    · exact h.unique.step fun x hx => absurd hx (hno x)
    · refine forall_own_step (P := HandApart) (fun x hx => absurd hx (hno x)) fun u _ x hx => ?_
      rw [hs, hus]
      exact ⟨fun hin => (h.apart u x hx).1 (hsub hin), (h.apart u x hx).2⟩
  | makes k hst hk hun hus hmn =>
    have hw := fun x => ne_of_unused (x := x) hun
    refine ⟨hst ▸ h.nodup, ?_, ?_, fun x hx => hmn x (h.used x (hst ▸ hx))⟩
    · refine h.unique.step fun x hx u _ hux => hw x (h.apart u x hux).2 ?_
      exact some.inj (hx.symm.trans hk)
    · refine forall_own_step (P := HandApart) (fun x hx => ?_) fun u _ x hx => ?_ <;> rw [hs, hst]
      · obtain rfl := some.inj (hk.symm.trans hx)
        exact ⟨fun hin => hw k (h.used k hin) rfl, hus⟩
      · exact ⟨(h.apart u x hx).1, hmn x (h.apart u x hx).2⟩

/-! ## The making of tasks -/

/-- What a turn does to the task a thread is making: its handle is given out at the end. -/
inductive Makes (s : Scheduler T K) (o : SchedOwn K) (s' : Scheduler T K) (o' : SchedOwn K) : Prop
  | keeps : o'.loc.making = o.loc.making → s'.issued = s.issued → s'.used = s.used → Makes s o s' o'
  | begins (k : K) : o'.loc.making = some k → s.used k = false → s'.used = Function.update s.used k true → s'.issued = s.issued →
      Makes s o s' o'
  | ends (k : K) : o.loc.making = some k → o'.loc.making = none → s'.issued = Function.update s.issued k true → s'.used = s.used →
      Makes s o s' o'

/-- A move makes only tasks with fresh keys. -/
theorem Move.makes (h : Move t s o s' o') : Makes s o s' o' := by
  have hk : ∀ {s' : Scheduler T K} {o' : SchedOwn K} {l : SchedLoc K}, o.loc = l → o'.loc.making = l.making →
      s'.issued = s.issued → s'.used = s.used → Makes s o s' o' := fun hloc hl his hus => .keeps (hloc ▸ hl) his hus
  cases h with
  | pass hp => exact .keeps hp.making rfl rfl
  | lock _ hin => exact .keeps hin.making rfl rfl
  | release ho => exact .keeps ho.making rfl rfl
  | pop hloc _ | queue hloc | repush hloc | push hloc | ask hloc _ | flag hloc | cancelled hloc | fetch hloc _ | work hloc =>
    exact hk hloc rfl rfl rfl
  | calls hloc =>
    rcases hloc with hloc | hloc
    · exact hk hloc rfl rfl rfl
    · exact hk hloc rfl rfl rfl
  | @make e once _ hu => exact .begins e.state rfl hu rfl rfl
  | @issue k hloc | @makeCalls k hloc => exact .ends k (by rw [hloc]; rfl) rfl rfl rfl
  | @scan k hloc => exact hk hloc rfl (scan_fields s k).2.2.1 (scan_fields s k).2.1
  | stop => exact .keeps rfl rfl rfl

/-- A task that a thread is making has no handle yet. -/
def Unissued (_ : T) (s : Scheduler T K) (o : SchedOwn K) : Prop := ∀ k, o.loc.making = some k → s.used k = true ∧ s.issued k = false

/-- A task is made once, and has no handle before it is in the heap. -/
structure Made (c : System T K) : Prop where
  once : Unique (fun o : SchedOwn K => o.loc.making) c
  making : ∀ t k, (c.own t).loc.making = some k → c.shared.used k = true ∧ c.shared.issued k = false
  issued : ∀ k, c.shared.issued k = true → c.shared.used k = true

/-- Every turn keeps keys to their tasks. -/
theorem Made.step (h : Made c) (i : T × SchedChoice K) : Made (step c i) := by
  show Made (Threads.step turn c i)
  have hs : (Threads.step turn c i).shared = (turn i.1 c.shared (c.own i.1) i.2).1 := rfl
  cases (turn_move i.1 c.shared (c.own i.1) i.2).makes with
  | keeps hkp his hus =>
    refine ⟨?_, ?_, by rw [hs, his, hus]; exact h.issued⟩
    · exact h.once.step fun k hk u hu hku => hu (h.once u i.1 k hku (hkp.symm.trans hk))
    · refine forall_own_step (P := Unissued) (fun k hk => ?_) fun u _ k hk => ?_ <;> rw [hs, his, hus]
      · exact h.making i.1 k (hkp.symm.trans hk)
      · exact h.making u k hk
  | begins k hk hun hus his =>
    have hn := fun x => ne_of_unused (x := x) hun
    have hmn : ∀ x, c.shared.used x = true → update c.shared.used k true x = true := fun x hx =>
      (update_of_ne (hn x hx) _ _).trans hx
    refine ⟨?_, ?_, fun x hx => by rw [hs, hus]; exact hmn x (h.issued x (his ▸ hx))⟩
    · refine h.once.step fun x hx u _ hux => hn x (h.making u x hux).1 ?_
      exact some.inj (hx.symm.trans hk)
    · refine forall_own_step (P := Unissued) (fun x hx => ?_) fun u _ x hx => ?_ <;> rw [hs, his, hus]
      · obtain rfl := some.inj (hk.symm.trans hx)
        refine ⟨update_self .., ?_⟩
        by_contra hx
        exact hn k (h.issued k (eq_true_of_ne_false hx)) rfl
      · exact ⟨hmn x (h.making u x hx).1, (h.making u x hx).2⟩
  | ends k hb ha his hus =>
    have hno := eq_none_iff_forall_ne_some.mp ha
    refine ⟨h.once.step fun x hx => absurd hx (hno x), ?_, ?_⟩
    · refine forall_own_step (P := Unissued) (fun x hx => absurd hx (hno x)) fun u hne x hx => ?_
      have hxk : x ≠ k := by
        rintro rfl
        exact hne (h.once u i.1 x hx hb)
      rw [hs, his, hus]
      exact ⟨(h.making u x hx).1, (update_of_ne hxk _ _).trans (h.making u x hx).2⟩
    · intro x hx
      rw [hs, hus]
      rcases eq_or_ne x k with rfl | hne
      · exact (h.making i.1 x hb).1
      · rw [hs, his] at hx
        exact h.issued x ((update_of_ne hne _ _).symm.trans hx)

/-! ## A task that is over -/

/-- Nothing of a cancelled task is in the heap, or comes there any more. -/
structure Over (k : K) (c : System T K) : Prop where
  cancelled : c.shared.cancelled k = true
  used : c.shared.used k = true
  heap : k ∉ c.shared.states
  repeating : ∀ t, (c.own t).loc.repeating ≠ some k
  making : ∀ t, (c.own t).loc.making ≠ some k

/-- The flag of a task stays set, a task stays made, and its handle given out. -/
theorem Move.monotone (h : Move t s o s' o') (k : K) :
    (s.cancelled k = true → s'.cancelled k = true) ∧ (s.used k = true → s'.used k = true) ∧ (s.issued k = true → s'.issued k = true) := by
  have hd : ∀ {f : K → Bool} {x : K}, f k = true → update f x true k = true := by
    intro f x hf
    rw [update_apply]
    split
    · rfl
    · exact hf
  cases h with
  | make => exact ⟨id, hd, id⟩
  | issue | makeCalls => exact ⟨id, id, hd⟩
  | flag => exact ⟨hd, id, id⟩
  | @scan x _ =>
    obtain ⟨hc, hu, his, -⟩ := scan_fields s x
    rw [hc, hu, his]
    exact ⟨id, id, id⟩
  | _ => exact ⟨id, id, id⟩

/-- The timer puts a task into the heap again only if its flag was not set. -/
theorem Move.repeating (h : Move t s o s' o') (hk : o'.loc.repeating = some k) : o.loc.repeating = some k ∨ s.cancelled k = false := by
  cases h with
  | @pass l hp =>
    have hk : l.repeating = some k := hk
    generalize o.loc = l0 at hp ⊢
    cases hp with
    | stay => exact .inl hk
    | repush e hn =>
      obtain rfl := some.inj hk
      exact .inr hn
    | _ => cases hk
  | @lock l _ hin =>
    have hk : l.repeating = some k := hk
    generalize o.loc = l0 at hin
    cases hin <;> cases hk
  | @release l ho =>
    have hk : l.repeating = some k := hk
    generalize o.loc = l0 at ho
    cases ho <;> cases hk
  | stop => exact .inl hk
  | _ => cases hk

/-- Every turn keeps a cancelled task out of the heap. -/
theorem Over.step (h : Over k c) (i : T × SchedChoice K) : Over k (step c i) := by
  have hmv := turn_move i.1 c.shared (c.own i.1) i.2
  refine ⟨(hmv.monotone k).1 h.cancelled, (hmv.monotone k).2.1 h.used, ?_, ?_, ?_⟩
  · intro hin
    refine h.heap ?_
    cases hmv.transfer with
    | keeps hs | makes _ hs => exact hs ▸ hin
    | takes x hp | drops x hp => exact hp.symm.subset (mem_cons_of_mem x hin)
    | puts x hp _ hf =>
      rcases mem_cons.mp (hp.subset hin) with rfl | hold
      · exact absurd hf (not_or.mpr ⟨h.repeating i.1, h.making i.1⟩)
      · exact hold
  · refine forall_own_step (P := fun _ _ (o : SchedOwn K) => o.loc.repeating ≠ some k) (fun hk => ?_) fun u _ => h.repeating u
    rcases hmv.repeating hk with hb | hnot
    · exact h.repeating i.1 hb
    · exact absurd (hnot.symm.trans h.cancelled) false_ne_true
  · refine forall_own_step (P := fun _ _ (o : SchedOwn K) => o.loc.making ≠ some k) (fun hk => ?_) fun u _ => h.making u
    cases hmv.makes with
    | keeps hkp => exact h.making i.1 (hkp.symm.trans hk)
    | begins x hx hu =>
      exact ne_of_unused hu h.used (some.inj (hk.symm.trans hx))
    | ends _ _ ha => exact absurd hk (eq_none_iff_forall_ne_some.mp ha k)

/-! ## Calls of `cancel` -/

/-- What a thread has done in a call of `cancel`, or in the last one that has returned. -/
structure Cancels (c : System T K) (o : SchedOwn K) : Prop where
  flag : ∀ k, o.loc = .xFlag k → c.shared.issued k = true
  lock : ∀ k, o.loc = .xLock k ∨ o.loc = .xScan k → c.shared.issued k = true ∧ c.shared.cancelled k = true
  unlock : ∀ k, o.loc = .xUnlock k → Over k c
  result : ∀ k, o.result = some k → Over k c

/-- What holds in every state. -/
structure Orderly (c : System T K) : Prop extends Entries c, Made c where
  holds : ∀ t, (c.own t).loc.holds = true → c.shared.mutex = some t
  cancels : ∀ t, Cancels c (c.own t)

/-- A move keeps the heap with the thread that has the mutex. -/
theorem Move.holds (h : Move t s o s' o') (hh : o.loc.holds = true → s.mutex = some t) (hl : o'.loc.holds = true) : s'.mutex = some t := by
  cases h with
  | @pass l hp =>
    have hl : l.holds = true := hl
    refine hh ?_
    generalize o.loc = l0 at hp ⊢
    cases hp with
    | stay => exact hl
    | repush => rfl
    | _ => cases hl
  | lock _ _ => rfl
  | @release l ho =>
    have hl : l.holds = true := hl
    generalize o.loc = l0 at ho
    cases ho <;> cases hl
  | stop => exact hh hl
  | _ => cases hl

/-- From where a turn leads to the places of `cancel`, and to its return. -/
theorem Move.cancelling (h : Move t s o s' o') (k : K) :
    (o'.loc = .xFlag k → o.loc = .xFlag k ∨ s.issued k = true) ∧
    (o'.loc = .xLock k ∨ o'.loc = .xScan k → (o.loc = .xLock k ∨ o.loc = .xScan k) ∨ (o.loc = .xFlag k ∧ s'.cancelled k = true)) ∧
    (o'.loc = .xUnlock k → o.loc = .xUnlock k ∨ (o.loc = .xScan k ∧ s' = s.scan k)) ∧
    (o'.result = some k → o.result = some k ∨ o.loc = .xUnlock k) := by
  cases h with
  | @pass l hp =>
    generalize hl : o.loc = l0 at hp
    cases hp with
    | stay => exact ⟨.inl, .inl, .inl, .inl⟩
    | _ => exact ⟨by rintro ⟨⟩, by rintro (⟨⟨⟩⟩ | ⟨⟨⟩⟩), by rintro ⟨⟩, .inl⟩
  | @lock l _ hin =>
    generalize hl : o.loc = l0 at hin
    cases hin with
    | cancel x =>
      refine ⟨by rintro ⟨⟩, ?_, by rintro ⟨⟩, .inl⟩
      rintro (⟨⟨⟩⟩ | ⟨⟨⟩⟩)
      exact .inl (.inl rfl)
    | _ => exact ⟨by rintro ⟨⟩, by rintro (⟨⟨⟩⟩ | ⟨⟨⟩⟩), by rintro ⟨⟩, .inl⟩
  | @release l ho =>
    generalize hl : o.loc = l0 at ho
    cases ho <;> exact ⟨by rintro ⟨⟩, by rintro (⟨⟨⟩⟩ | ⟨⟨⟩⟩), by rintro ⟨⟩, .inl⟩
  | make => exact ⟨by rintro ⟨⟩, by rintro (⟨⟨⟩⟩ | ⟨⟨⟩⟩), by rintro ⟨⟩, by rintro ⟨⟩⟩
  | ask hl his =>
    refine ⟨?_, by rintro (⟨⟨⟩⟩ | ⟨⟨⟩⟩), by rintro ⟨⟩, by rintro ⟨⟩⟩
    rintro ⟨⟩
    exact .inr his
  | flag hl =>
    refine ⟨by rintro ⟨⟩, ?_, by rintro ⟨⟩, .inl⟩
    rintro (⟨⟨⟩⟩ | ⟨⟨⟩⟩)
    exact .inr ⟨hl, update_self ..⟩
  | scan hl =>
    refine ⟨by rintro ⟨⟩, by rintro (⟨⟨⟩⟩ | ⟨⟨⟩⟩), ?_, .inl⟩
    rintro ⟨⟩
    exact .inr ⟨hl, rfl⟩
  | cancelled hl =>
    refine ⟨by rintro ⟨⟩, by rintro (⟨⟨⟩⟩ | ⟨⟨⟩⟩), by rintro ⟨⟩, ?_⟩
    rintro ⟨⟩
    exact .inr hl
  | stop => exact ⟨.inl, .inl, .inl, .inl⟩
  | _ => exact ⟨by rintro ⟨⟩, by rintro (⟨⟨⟩⟩ | ⟨⟨⟩⟩), by rintro ⟨⟩, .inl⟩

/-- After the scan the task is over. -/
theorem Orderly.over_of_scan (h : Orderly c) (i : T × SchedChoice K) (hloc : (c.own i.1).loc = .xScan k)
    (ha : (turn i.1 c.shared (c.own i.1) i.2).2.loc = .xUnlock k) (hs : (step c i).shared = c.shared.scan k) : Over k (step c i) := by
  obtain ⟨his, hcn⟩ := (h.cancels i.1).lock k (.inr hloc)
  obtain ⟨hc, hu, -⟩ := scan_fields c.shared k
  have hmt := h.holds i.1 (by rw [hloc]; rfl)
  refine ⟨?_, ?_, ?_, ?_, ?_⟩
  · rw [hs, hc]
    exact hcn
  · rw [hs, hu]
    exact h.issued k his
  · rw [hs]
    rcases scan_states c.shared k with ⟨hn, hsm⟩ | ⟨-, hp⟩
    · rw [hsm]
      exact hn
    · exact (nodup_cons.mp (hp.nodup h.nodup)).1
  · refine forall_own_step (P := fun _ _ (o : SchedOwn K) => o.loc.repeating ≠ some k) (by rw [ha]; rintro ⟨⟩) fun u hu hk => ?_
    have ho : c.shared.mutex = some u := by
      refine h.holds u ?_
      cases hl : (c.own u).loc <;> rw [hl] at hk <;> first | rfl | cases hk
    exact hu (some.inj (ho.symm.trans hmt))
  · refine forall_own_step (P := fun _ _ (o : SchedOwn K) => o.loc.making ≠ some k) (by rw [ha]; rintro ⟨⟩) fun u _ hk => ?_
    exact absurd ((h.making u k hk).2.symm.trans his) false_ne_true

/-- What a thread has done stays done. -/
theorem Cancels.step (h : Cancels c o) (i : T × SchedChoice K) : Cancels (step c i) o := by
  have hmn := (turn_move i.1 c.shared (c.own i.1) i.2).monotone
  refine ⟨fun k hk => (hmn k).2.2 (h.flag k hk), fun k hk => ?_, fun k hk => (h.unlock k hk).step i, fun k hk => (h.result k hk).step i⟩
  obtain ⟨his, hc⟩ := h.lock k hk
  exact ⟨(hmn k).2.2 his, (hmn k).1 hc⟩

/-- Every turn keeps the scheduler in order. -/
theorem Orderly.step (h : Orderly c) (i : T × SchedChoice K) : Orderly (step c i) := by
  have hmv := turn_move i.1 c.shared (c.own i.1) i.2
  have hs := (h.cancels i.1).step i
  refine ⟨h.toEntries.step i, h.toMade.step i, ?_, ?_⟩
  · exact forall_own_step (P := fun t s (o : SchedOwn K) => o.loc.holds = true → s.mutex = some t)
      (hmv.holds (h.holds i.1)) fun u hu hl => hmv.mutex_other hu (h.holds u hl)
  · refine forall_own_step (P := fun _ _ o => Cancels (Scheduler.step c i) o) ⟨?_, ?_, ?_, ?_⟩ fun u _ => (h.cancels u).step i
    · intro k hk
      rcases (hmv.cancelling k).1 hk with hb | his
      · exact hs.flag k hb
      · exact (hmv.monotone k).2.2 his
    · intro k hk
      rcases (hmv.cancelling k).2.1 hk with hb | ⟨hb, hc⟩
      · exact hs.lock k hb
      · exact ⟨hs.flag k hb, hc⟩
    · intro k hk
      rcases (hmv.cancelling k).2.2.1 hk with hb | ⟨hb, hsc⟩
      · exact hs.unlock k hb
      · exact h.over_of_scan i hb hk hsc
    · intro k hk
      rcases (hmv.cancelling k).2.2.2 hk with hb | hb
      · exact hs.result k hb
      · exact hs.unlock k hb

omit [DecidableEq K] in
theorem orderly_initial (timer : T) (wk : T → Bool) : Orderly (initial K timer wk) := by
  have hc : ∀ t, ((initial K timer wk).own t).loc = .tStart ∨ ((initial K timer wk).own t).loc = .wTop ∨
      ((initial K timer wk).own t).loc = .idle := by
    intro t
    unfold initial
    dsimp only
    split
    · exact .inl rfl
    · split
      · exact .inr (.inl rfl)
      · exact .inr (.inr rfl)
  have hat : ∀ t, let l := ((initial K timer wk).own t).loc; l.hand = none ∧ l.making = none ∧ l.holds = false ∧
      ∀ k, l ≠ .xFlag k ∧ l ≠ .xLock k ∧ l ≠ .xScan k ∧ l ≠ .xUnlock k := by
    intro t
    rcases hc t with h | h | h <;> rw [h] <;> exact ⟨rfl, rfl, rfl, fun _ => ⟨nofun, nofun, nofun, nofun⟩⟩
  have hh := fun t => eq_none_iff_forall_ne_some.mp (hat t).1
  have hmk := fun t => eq_none_iff_forall_ne_some.mp (hat t).2.1
  refine ⟨⟨nodup_nil, fun t _ k ht => absurd ht (hh t k), fun t k ht => absurd ht (hh t k), fun k hk => absurd hk not_mem_nil⟩,
    ⟨fun t _ k ht => absurd ht (hmk t k), fun t k ht => absurd ht (hmk t k), fun k hk => absurd hk false_ne_true⟩,
    fun t hl => absurd ((hat t).2.2.1.symm.trans hl) false_ne_true, fun t => ⟨?_, ?_, ?_, by rintro _ ⟨⟩⟩⟩
  · exact fun k hk => absurd hk ((hat t).2.2.2 k).1
  · rintro k (hk | hk)
    · exact absurd hk ((hat t).2.2.2 k).2.1
    · exact absurd hk ((hat t).2.2.2 k).2.2.1
  · exact fun k hk => absurd hk ((hat t).2.2.2 k).2.2.2

/-! ## What may still start -/

variable [Fintype T]

/-- How often a task may still start: it is in the queue, past the check in the timer's hand, or with a worker. -/
def pending (c : System T K) (k : K) : ℕ :=
  c.shared.queue.count k + tally (fun o : SchedOwn K => decide (o.loc.starting = some k)) c.own

end Scheduler

end Libft.Threading
