import Libft.PThread.Lemmas.RwInvariants

/-!
# A writer is alone

A writer counts the fast readers before it closes the fast path, and a reader that looks at the flag in between gets the lock. When the
path is closed, or no fast reader is counted, at the moment a writer takes the lock, nobody else has it.
-/

namespace Libft.PThread

/-- Who holds the fast path is counted. -/
theorem Own.counted_of_holdsFast {o : Own} (h : o.holdsFast = true) : o.counted = true := by
  obtain ⟨l, e⟩ := o
  cases l with
  | rdCount b | rdRecheck b => cases h
  | rdUncount b | ruLoad | ruSub => rfl
  | _ => exact h

namespace RwLock

variable {T : Type} [DecidableEq T] {t : T} {s s' : RwLock T} {o o' : Own} {ch : Choice}

/-- A thread that takes a turn as the writer-to-be has the fast path closed, or no fast reader. -/
def TakesAlone (c : System T) (i : T × Choice) : Prop :=
  (c.own i.1).loc.takes = true → c.shared.readerFastPathOpen = false ∨ c.shared.fastActiveReaders = 0

/-- Readers get the lock by the fast path while it is open. -/
theorem Move.holdsFast (h : Move t s o ch s' o') (ho : o.holdsFast = false) (hc : s.readerFastPathOpen = false) : o'.holdsFast = false := by
  cases h with
  | look h =>
    cases h with
    | wakeNot k => rcases k with (_ | _) | _ <;> exact ho
    | rdFast b e _ hop => exact absurd (hc.symm.trans hop) Bool.false_ne_true
    | _ => exact ho
  | lock _ h => cases h <;> exact ho
  | unlock h =>
    cases h with
    | wake k => rcases k with (_ | _) | _ <;> exact ho
    | _ => exact ho
  | setOpen | rdRefresh | wrWrap | wuWriters => split <;> exact ho
  | ruWriters => split <;> rfl
  | rdQueue l e ch hl => rcases hl with ⟨rfl, _⟩ | rfl <;> exact ho
  | _ => first | rfl | exact ho

/-- A thread comes to take the lock when no fast reader is counted. -/
theorem Move.takes (h : Move t s o ch s' o') (ht : o'.loc.takes = true) :
    (s' = s ∧ o' = o) ∨ s.fastActiveReaders = 0 ∧ o'.holdsFast = o.holdsFast := by
  cases h with
  | look h =>
    cases h with
    | stay => exact .inl ⟨rfl, rfl⟩
    | wakeNot k => rcases k with (_ | _) | _ <;> cases ht
    | wrTry _ _ h0 => exact .inr ⟨h0, rfl⟩
    | wrClear n e _ hw => exact .inr ⟨(writerWaits_eq_false hw).2.1, rfl⟩
    | _ => cases ht
  | lock _ h => cases h <;> cases ht
  | unlock h =>
    cases h with
    | wake k => rcases k with (_ | _) | _ <;> cases ht
    | _ => cases ht
  | setOpen | rdRefresh | wuWriters | ruWriters => split at ht <;> cases ht
  | wrWrap _ _ _ _ _ _ _ h0 => exact .inr ⟨h0, by split <;> rfl⟩
  | _ => cases ht

variable [Fintype T] {c : System T}

/-- While there is a writer no reader has the lock by the fast path, and none gets it by a path that is closed while a writer is about to
take the lock. -/
structure Excludes (c : System T) : Prop extends Orderly c where
  alone : c.shared.activeWriterThread ≠ none → ∀ u, (c.own u).holdsFast = false
  taking : ∀ t, (c.own t).loc.takes = true → c.shared.readerFastPathOpen = false → ∀ u, (c.own u).holdsFast = false

omit [DecidableEq T] in
/-- Where no fast reader is counted, nobody holds the fast path. -/
theorem Sound.not_holdsFast (h : Sound c) (h0 : c.shared.fastActiveReaders = 0) (u : T) : (c.own u).holdsFast = false := by
  by_contra hu
  have hc := Own.counted_of_holdsFast (eq_true_of_ne_false hu)
  rw [h.fast.eq_zero.mp h0 u] at hc
  exact Bool.false_ne_true hc

/-- Nobody has the lock by a closed fast path after a turn, if nobody had before. -/
theorem Sound.not_holdsFast_after (h : Sound c) (i : T × Choice) (hc : c.shared.readerFastPathOpen = false)
    (hno : ∀ u, (c.own u).holdsFast = false) : ∀ u, ((RwLock.step c i).own u).holdsFast = false :=
  Threads.forall_own_step (P := fun _ _ (o : Own) => o.holdsFast = false) ((h.move i).holdsFast (hno i.1) hc) fun u _ => hno u

/-- A turn that takes alone keeps readers and writers apart. -/
theorem Excludes.step (h : Excludes c) (i : T × Choice) (hi : TakesAlone c i) : Excludes (step c i) where
  toOrderly := h.toOrderly.step i
  alone hsm := by
    by_cases hb : c.shared.activeWriterThread = none
    · obtain ⟨_, htk, hsl⟩ := (h.move i).becomes hb hsm
      have hno : ∀ u, (c.own u).holdsFast = false := by
        rcases hi htk with hc | h0
        · exact h.taking i.1 htk hc
        · exact h.not_holdsFast h0
      exact Threads.forall_own_step (P := fun _ _ (o : Own) => o.holdsFast = false) (hsl.trans (hno i.1)) fun u _ => hno u
    · exact h.toSound.not_holdsFast_after i (h.coherent.writer hb).2.2 (h.alone hb)
  taking t htk hc := by
    by_cases ht : t = i.1
    · subst ht
      rw [own_step] at htk
      rcases (h.move i).takes htk with ⟨hs, ho⟩ | ⟨h0, hsl⟩
      · rw [ho] at htk
        rw [hs] at hc
        exact h.toSound.not_holdsFast_after i hc (h.taking i.1 htk hc)
      · have hno := h.not_holdsFast h0
        exact Threads.forall_own_step (P := fun _ _ (o : Own) => o.holdsFast = false) (hsl.trans (hno i.1)) fun u _ => hno u
    · rw [own_step_other ht] at htk
      have hl : (c.own t).loc.locked = true := by
        revert htk
        cases (c.own t).loc <;> simp [Loc.takes, Loc.locked]
      obtain ⟨_, _, _, _, heq⟩ := (h.move i).outside (h.locks.outside hl (Ne.symm ht))
      rw [heq] at hc
      exact h.toSound.not_holdsFast_after i hc (h.taking t htk hc)

omit [DecidableEq T] in
theorem excludes_initial (st : Strategy) : Excludes (initial T st) where
  toOrderly := orderly_initial st
  alone h := absurd rfl h
  taking _ h := absurd h Bool.false_ne_true

omit [DecidableEq T] in
/-- A thread is where it takes the lock only while there is no writer. -/
theorem Orderly.not_takes (h : Orderly c) (hs : c.shared.activeWriterThread ≠ none) (t : T) : (c.own t).loc.takes = false := by
  have hk := h.knows t
  unfold At at hk
  cases hl : (c.own t).loc with
  | wrTake n | wrTryTake =>
    rw [hl] at hk
    exact absurd hk.2.1 hs
  | _ => rfl

/-- In a run in which no writer takes the lock with the fast path open and a fast reader counted, the writer is alone: no other thread has
the lock to read or to write, or is where it takes it. -/
theorem run_excludes {strategy : Strategy} {turns : List (T × Choice)} (h : Meets step TakesAlone (initial T strategy) turns)
    {w u : T} (hw : HoldsWrite (run strategy turns) w) (hu : u ≠ w) :
    ((run strategy turns).own u).holdsRead = false ∧ ¬HoldsWrite (run strategy turns) u ∧
      ((run strategy turns).own u).loc.takes = false := by
  have he : Excludes (run strategy turns) := h.invariant (fun _ i hc hi => hc.step i hi) (excludes_initial strategy)
  have hs : (run strategy turns).shared.activeWriterThread ≠ none := by
    rw [show _ = some w from hw]
    exact Option.some_ne_none w
  refine ⟨?_, ?_, he.not_takes hs u⟩
  · have ha := he.readers.eq_zero.mp (he.coherent.writer hs).1 u
    rw [Own.holdsRead, ha, he.alone hs u]
    rfl
  · intro ho
    exact hu (Option.some.inj ((show _ = some u from ho).symm.trans hw))

/-- A writer that comes when a reader has left, and takes the lock. -/
def aloneTurns : List (Fin 2 × Choice) :=
  [(0, .call .rdlock), (0, .go true), (0, .go true), (0, .go true), (0, .call .rdunlock), (0, .go true), (0, .go true),
    (1, .call .wrlock), (1, .go true), (1, .go true), (1, .go true), (1, .go true), (1, .go true), (1, .go true)]

instance TakesAlone.decidable (c : System T) (i : T × Choice) : Decidable (TakesAlone c i) :=
  inferInstanceAs (Decidable (_ → _))

/-- A writer that takes the lock after the reader has gone. -/
theorem run_excludes_alone : HoldsWrite (run .readerPriority aloneTurns) 1 ∧
    ((run .readerPriority aloneTurns).own 0).holdsRead = false ∧ ¬HoldsWrite (run .readerPriority aloneTurns) 0 ∧
      ((run .readerPriority aloneTurns).own 0).loc.takes = false := by
  have hw : HoldsWrite (run .readerPriority aloneTurns) 1 := by decide +kernel
  exact ⟨hw, run_excludes (by decide +kernel) hw (by decide)⟩

/-- A reader has seen the fast path open when a writer comes. The writer counts no fast reader; then the reader is counted, sees the path
still open and has the lock; then the writer closes the path and has the lock. -/
def sharedTurns : List (Fin 2 × Choice) :=
  [(0, .call .rdlock), (0, .go true), (1, .call .wrlock), (1, .go true), (1, .go true), (1, .go true), (1, .go true),
    (0, .go true), (0, .go true), (1, .go true), (1, .go true)]

/-- Both calls have returned, and both threads have the lock. -/
theorem run_shared : HoldsWrite (run .readerPriority sharedTurns) 1 ∧ ((run .readerPriority sharedTurns).own 0).holdsRead = true ∧
    ∀ t, ((run .readerPriority sharedTurns).own t).loc = .idle := by
  decide +kernel

end RwLock

end Libft.PThread
