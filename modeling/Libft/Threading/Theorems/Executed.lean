import Libft.Threading.Lemmas.PoolProgress

/-!
# Every accepted task is executed once

While the wrappers of the tasks get memory, every task that `submit` accepts is started once at most, and once in a fair run in which
the functions end; it is finished before `destroy` has returned; nothing is accepted once the pool is stopped, and the queue stays within
its maximum. `submit` does not look at its wrapper, where its siblings in the task scheduler do: without memory for the function it
queues an empty one and reports success, and the task is never executed.
-/

namespace Libft.Threading

open List Threads

namespace ThreadPool

variable {T : Type} [DecidableEq T] [Fintype T]

/-- In every endless run with memory a task starts and ends at most once and the bound of the queue is kept; under fairness every
accepted task is executed; when `destroy` returns all of them are, and none is accepted after the stop. -/
theorem run_executes (worker : T → Bool) (hworker : ∃ w, worker w = true) (maxTasks : ℕ) (threadSafe : Bool)
    (turns : ℕ → T × PoolChoice) (hstores : ∀ n, stores (states worker maxTasks threadSafe turns n) (turns n) = true) :
    (∀ n k, (states worker maxTasks threadSafe turns n).shared.started k ≤ 1 ∧
      (states worker maxTasks threadSafe turns n).shared.finished k ≤ 1) ∧
    (Fair (states worker maxTasks threadSafe turns) turns → TasksEnd (states worker maxTasks threadSafe turns) →
      ∀ n k, k < (states worker maxTasks threadSafe turns n).shared.accepted →
        ∃ m, n ≤ m ∧ (states worker maxTasks threadSafe turns m).shared.finished k = 1) ∧
    (∀ n, (states worker maxTasks threadSafe turns n).shared.destroyed = true →
      ∀ k, k < (states worker maxTasks threadSafe turns n).shared.accepted →
        (states worker maxTasks threadSafe turns n).shared.finished k = 1) ∧
    (∀ n, (states worker maxTasks threadSafe turns n).shared.stop = true → ∀ m, n ≤ m →
      (states worker maxTasks threadSafe turns m).shared.accepted = (states worker maxTasks threadSafe turns n).shared.accepted) ∧
    (maxTasks ≠ 0 → ∀ n, (states worker maxTasks threadSafe turns n).shared.tasks.length ≤ maxTasks) := by
  have hs := sound_states hworker hstores
  refine ⟨fun n => (hs n).once, fun hf he n k hk => ?_, fun n hd => ?_, fun n hst m hle => ?_, fun hm n => (hs n).bounded hm⟩
  · exact finished_of_accepted (fun _ => rfl) hf held_states he hs hworker hk
  · exact (hs n).finished hworker ((hs n).destroyed hd)
  · have hl := lasts (P := fun m => (states worker maxTasks threadSafe turns m).shared.stop = true ∧
      (states worker maxTasks threadSafe turns m).shared.accepted = (states worker maxTasks threadSafe turns n).shared.accepted)
      (fun k hk => ?_) ⟨hst, rfl⟩ hle
    · exact hl.2
    · obtain ⟨-, hkp, -⟩ := (move_at (x := states worker maxTasks threadSafe turns) (fun _ => rfl) k).queue
      exact ⟨(hkp hk.1).1, (hkp hk.1).2.trans hk.2⟩

/-! ## One task -/

/-- Thread `b` hands in one task, and worker `a` executes it. -/
def oneTaskTurns : List (Name × PoolChoice) :=
  flatten [[(.b, .call .submit)], replicate 5 (.b, .go true true), replicate 4 (.a, .go true true), [(.a, .returns)],
    replicate 3 (.a, .go true true)]

/-- One task is handed in, then only rounds follow. -/
def oneTask : ℕ → Name × PoolChoice := cycle oneTaskTurns roundTurns (.a, .go true true)

theorem oneTask_memory (n : ℕ) (b : Bool) : (oneTask n).2 ≠ .go false b := by
  refine cycle_from (P := fun i : Name × PoolChoice => i.2 ≠ .go false b) (k := 0) ?_ (Nat.zero_le n)
  revert b
  decide

theorem oneTask_round : states onlyA 0 false oneTask (oneTaskTurns.length + roundTurns.length) =
    states onlyA 0 false oneTask oneTaskTurns.length := by
  refine Threads.ext rfl (funext ?_)
  decide +kernel

/-- The task is executed. -/
theorem run_executes_one : (∀ n, stores (states onlyA 0 false oneTask n) (oneTask n) = true) ∧
    Fair (states onlyA 0 false oneTask) oneTask ∧ TasksEnd (states onlyA 0 false oneTask) ∧
    (states onlyA 0 false oneTask 6).shared.accepted = 1 ∧
    ∃ m, 6 ≤ m ∧ (states onlyA 0 false oneTask m).shared.finished 0 = 1 := by
  have hs : ∀ n, stores (states onlyA 0 false oneTask n) (oneTask n) = true := fun n => stores_of_ne (oneTask_memory n)
  have hr : ∀ t, Recurs fun m => ((states onlyA 0 false oneTask m).own t).loc = .wTest ∨
      ((states onlyA 0 false oneTask m).own t).loc = .idle := by
    intro t
    refine recurs_of_cycle oneTask_round (j := 1) (by decide) (I := fun c => (c.own t).loc = .wTest ∨ (c.own t).loc = .idle) ?_
    revert t
    decide +kernel
  have hf : Fair (states onlyA 0 false oneTask) oneTask := fair_of_rests (goes_roundTurns oneTaskTurns) hr
  have hen : TasksEnd (states onlyA 0 false oneTask) := tasksEnd_of_rests hr
  have ha : (states onlyA 0 false oneTask 6).shared.accepted = 1 := by decide +kernel
  obtain ⟨-, he, -⟩ := run_executes onlyA ⟨.a, rfl⟩ 0 false oneTask hs
  exact ⟨hs, hf, hen, ha, he hf hen 6 0 (Nat.lt_of_lt_of_eq Nat.zero_lt_one ha.symm)⟩

/-- The same without memory for the wrapper, and then the end of the pool. -/
theorem run_executes_not : ∃ turns : ℕ → Name × PoolChoice,
    ((states onlyA 0 false turns 6).own .b).error = .success ∧ (states onlyA 0 false turns 6).shared.accepted = 1 ∧
    (states onlyA 0 false turns 22).shared.destroyed = true ∧ (states onlyA 0 false turns 22).shared.started 0 = 0 := by
  refine ⟨fun n => (flatten [[(.b, .call .submit), (.b, .go true true), (.b, .go true true), (.b, .go false true)],
    replicate 2 (.b, .go true true), replicate 7 (.a, .go true true), [(.b, .call .destroy)],
    replicate 3 (.b, .go true true), replicate 3 (.a, .go true true)]).getD n (.b, .go true true), ?_⟩
  decide

end ThreadPool

end Libft.Threading
