import Libft.Threading.Lemmas.Scheduled

/-!
# Accesses to the heap of scheduled tasks

The timer thread gives the mutex back to hand over a task that is due, and goes on at the top of the loop that reads the heap without
taking it again. As long as a task handed over is the last one, for the scheduler is being stopped, every access to the heap is made by a
thread that holds the mutex.
-/

namespace Libft.Threading

open Threads Bool

variable {T K : Type}

namespace SchedLoc

/-- The next turn reads or changes the heap. -/
def accesses : SchedLoc K → Bool
  | .tSize | .tDrain | .tPop | .tRepush _ | .cPush _ _ | .xScan _ => true
  | _ => false

/-- The timer has handed a task over and is about to look whether it is to go on. -/
def handedOver : SchedLoc K → Bool
  | .tRunning _ => true
  | _ => false

/-- The timer has gone on, and takes the mutex to repeat the task. -/
def beyond : SchedLoc K → Bool
  | .tRelock _ | .tAgain _ | .tRepush _ | .tReUnlock => true
  | _ => false

/-- A place where the thread should have the mutex. -/
def guarded : SchedLoc K → Bool
  | .tHead | .tSize | .tWait _ | .tDrain | .tPop | .tCheck _ | .tUnlock _ _ | .tEnd | .tQuit => true
  | .cPush _ _ | .cUnlock _ _ | .xScan _ | .xUnlock _ => true
  | _ => false

theorem guarded_of_accesses {l : SchedLoc K} (h : l.accesses = true) (hb : l.beyond = false) : l.guarded = true := by
  cases l <;> first | rfl | exact absurd h false_ne_true | exact absurd hb false_ne_true.symm

end SchedLoc

namespace Scheduler

variable {t u : T} {s s' : Scheduler T K} {o o' : SchedOwn K}

/-- A turn in which the timer, if it has just handed a task over, is to stop. -/
def HandsOverLast (c : System T K) (i : T × SchedChoice K) : Prop := (c.own i.1).loc.handedOver = true → c.shared.running = false

/-- A thread has the mutex where it should, and no task is repeated. -/
structure Guards (t : T) (s : Scheduler T K) (o : SchedOwn K) : Prop where
  mutex : o.loc.guarded = true → s.mutex = some t
  beyond : o.loc.beyond = false

theorem Passes.guarded {l l' : SchedLoc K} (h : Passes s l l') (hl : l.handedOver = true → s.running = false)
    (hb : l.beyond = false) : (l'.guarded = true → l.guarded = true) ∧ l'.beyond = false := by
  cases h with
  | stay => exact ⟨id, hb⟩
  | again _ hr | next _ hr => exact absurd ((hl rfl).symm.trans hr) false_ne_true
  | againNot | repush | repushNot => cases hb
  | _ => exact ⟨by simp [SchedLoc.guarded], rfl⟩

variable [DecidableEq T] [DecidableEq K]

/-- A move that hands over last keeps every access guarded. -/
theorem Move.guards (h : Move t s o s' o') (hls : o.loc.handedOver = true → s.running = false) (hg : Guards t s o) : Guards t s' o' := by
  have hk : ∀ {l l' : SchedLoc K}, o.loc = l → (l'.guarded = true → l.guarded = true) → l'.guarded = true → s.mutex = some t :=
    fun hc hl hl' => hg.mutex (hc ▸ hl hl')
  cases h with
  | pass hp =>
    obtain ⟨hgr, hb⟩ := hp.guarded hls hg.beyond
    exact ⟨fun hl => hg.mutex (hgr hl), hb⟩
  | @lock l hf hin =>
    refine ⟨fun _ => rfl, ?_⟩
    have hb := hg.beyond
    generalize o.loc = l0 at hin hb
    cases hin with
    | again e => cases hb
    | _ => rfl
  | @release l ho =>
    have hb := hg.beyond
    generalize o.loc = l0 at ho hb
    cases ho with
    | again => cases hb
    | _ => exact ⟨by rintro ⟨⟩, rfl⟩
  | pop hc _ | push hc => exact ⟨hk hc fun _ => rfl, rfl⟩
  | repush hc => exact absurd hg.beyond (by rw [hc]; exact false_ne_true.symm)
  | @scan k hc =>
    refine ⟨fun _ => ?_, rfl⟩
    have hh : s.mutex = some t := hg.mutex (by rw [hc]; rfl)
    unfold Scheduler.scan
    split <;> exact hh
  | stop => exact ⟨hg.mutex, hg.beyond⟩
  | _ => exact ⟨by rintro ⟨⟩, rfl⟩

/-- In a run in which a task handed over is the last one, whoever accesses the heap holds the mutex. -/
theorem run_accesses_guarded {timer : T} {worker : T → Bool} {turns : List (T × SchedChoice K)}
    (h : Meets step HandsOverLast (initial K timer worker) turns) {t : T}
    (haccesses : ((run timer worker turns).own t).loc.accesses = true) : (run timer worker turns).shared.mutex = some t := by
  have hg : ∀ t, Guards t (run timer worker turns).shared ((run timer worker turns).own t) := by
    refine h.invariant (I := fun c => ∀ t, Guards t c.shared (c.own t)) (fun c i hc hi => ?_) fun t => ?_
    · have hmv := turn_move i.1 c.shared (c.own i.1) i.2
      refine forall_own_step (P := Guards) (hmv.guards hi (hc i.1)) fun u hu => ?_
      exact ⟨fun hl => hmv.mutex_other hu ((hc u).mutex hl), (hc u).beyond⟩
    · unfold initial
      dsimp only
      constructor
      · split
        · rintro ⟨⟩
        · split <;> rintro ⟨⟩
      · split
        · rfl
        · split <;> rfl
  exact (hg t).mutex (SchedLoc.guarded_of_accesses haccesses (hg t).beyond)

instance HandsOverLast.decidable (c : System T K) (i : T × SchedChoice K) : Decidable (HandsOverLast c i) :=
  inferInstanceAs (Decidable (_ → _))

/-- A caller schedules a task for now, and the timer thread hands it over to the workers. -/
def handOverTurns : List (Name × SchedChoice Name) :=
  (.b, .call (.after .a 0) 0) :: List.replicate 3 (.b, .go 0 true) ++ List.replicate 9 (.a, .go 0 true)

/-- The scheduler is stopped then; the timer returns, and another task is about to enter the heap. -/
def stoppedTurns : List (Name × SchedChoice Name) :=
  handOverTurns ++ [(.b, .stop), (.a, .go 0 true), (.b, .call (.after .b 0) 0), (.b, .go 0 true)]

/-- A caller pushes after the timer has stopped. -/
theorem run_accesses_guarded_stopped :
    ((run .a (fun _ => false) stoppedTurns).own .b).loc.accesses = true ∧ (run .a (fun _ => false) stoppedTurns).shared.queue = [.a] ∧
      (run .a (fun _ => false) stoppedTurns).shared.mutex = some .b := by
  have ha : ((run .a (fun _ => false) stoppedTurns).own .b).loc.accesses = true := by decide +kernel
  exact ⟨ha, by decide +kernel, run_accesses_guarded (by decide +kernel) ha⟩

/-- The scheduler is not stopped: the timer goes on, while another task is about to enter the heap. -/
def racingTurns : List (Name × SchedChoice Name) :=
  handOverTurns ++ [(.a, .go 0 true), (.b, .call (.after .b 0) 0), (.b, .go 0 true)]

/-- Both threads access the heap next, and the timer does not hold the mutex. -/
theorem run_accesses_racing : ((run .a (fun _ => false) racingTurns).own .a).loc.accesses = true ∧
    ((run .a (fun _ => false) racingTurns).own .b).loc.accesses = true ∧
    (run .a (fun _ => false) racingTurns).shared.mutex = some .b := by
  decide +kernel

end Scheduler

end Libft.Threading
