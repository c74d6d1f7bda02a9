import Libft.Lib.Run
import Mathlib.Data.Fintype.Card

/-!
# Threads

Any number of threads that share a state and have one each, and take their turns in any order. A run is a list of turns, so the rules
for runs apply. Two kinds of invariants recur: a lock that is held where a thread is inside a section (`Locks`), and a counter of the
threads in a condition (`Counts`). Each is kept when every turn keeps it, whichever thread takes it.
-/

namespace Libft

open Function Finset Option

/-- What the threads share, and what each has to itself. -/
@[ext] structure Threads (T S L : Type*) where
  shared : S
  own : T → L

namespace Threads

variable {T S L ι : Type*} {c : Threads T S L}

/-! ## A lock -/

section Locks

variable (owner : S → Option T) (inside : L → Bool)

/-- The lock is held by the thread that is inside, if one is. -/
def Locks (c : Threads T S L) : Prop := ∀ t, owner c.shared = some t ↔ inside (c.own t) = true

/-- A turn leaves the lock alone, takes it when it is free, or gives it back. -/
def TurnLocks (t : T) (s : S) (l : L) (s' : S) (l' : L) : Prop :=
  (owner s' = owner s ∧ inside l' = inside l) ∨ (owner s = none ∧ owner s' = some t ∧ inside l' = true) ∨
    (inside l = true ∧ owner s' = none ∧ inside l' = false)

/-- A thread that holds the lock is inside. -/
def Holds (c : Threads T S L) : Prop := ∀ t, owner c.shared = some t → inside (c.own t) = true

/-- A turn leaves the lock alone, and the thread inside if it holds it; or takes it; or gives it back. -/
def TurnHolds (t : T) (s : S) (l : L) (s' : S) (l' : L) : Prop :=
  (owner s' = owner s ∧ (owner s = some t → inside l = true → inside l' = true)) ∨
    (owner s = none ∧ owner s' = some t ∧ inside l' = true) ∨ (owner s = some t ∧ owner s' = none)

variable {owner inside} {t u : T}

/-- What another thread holds it keeps. -/
theorem TurnHolds.other {s s' : S} {l l' : L} (h : TurnHolds owner inside t s l s' l') (hu : u ≠ t) :
    owner s' = some u ↔ owner s = some u := by
  rcases h with ⟨hs, -⟩ | ⟨hf, ht, -⟩ | ⟨hmn, hf⟩
  · rw [hs]
  · simp [hf, ht, Ne.symm hu]
  · simp [hmn, hf, Ne.symm hu]

/-- Two threads are not inside at once. -/
theorem Locks.eq (h : Locks owner inside c) (ht : inside (c.own t) = true) (hu : inside (c.own u) = true) : t = u := by
  have h1 := (h t).mpr ht
  rw [(h u).mpr hu] at h1
  exact (some.inj h1).symm

/-- While one is inside, the others are not. -/
theorem Locks.outside (h : Locks owner inside c) (ht : inside (c.own t) = true) (hne : u ≠ t) : inside (c.own u) = false :=
  Bool.eq_false_iff.mpr fun hu => hne (h.eq hu ht)

end Locks

/-! ## A counter -/

section Counts

variable [Fintype T] {p : L → Bool} {own : T → L} {cnt : S → ℕ}

/-- How many threads are in a condition. -/
def tally (p : L → Bool) (own : T → L) : ℕ := (Finset.univ.filter fun t => p (own t) = true).card

/-- Nobody is counted when nobody has the property. -/
theorem tally_eq_zero : tally p own = 0 ↔ ∀ t, p (own t) = false := by
  simp [tally, filter_eq_empty_iff]

/-- Somebody is counted when somebody has it. -/
theorem tally_ne_zero : tally p own ≠ 0 ↔ ∃ t, p (own t) = true := by
  rw [Ne, tally_eq_zero]
  simp

theorem tally_pos {t : T} (h : p (own t) = true) : 0 < tally p own := Nat.pos_of_ne_zero (tally_ne_zero.mpr ⟨t, h⟩)

/-- The counter says how many threads are in the condition. -/
def Counts (cnt : S → ℕ) (p : L → Bool) (c : Threads T S L) : Prop := cnt c.shared = tally p c.own

/-- The counter is not zero when somebody is counted. -/
theorem Counts.ne_zero (h : Counts cnt p c) : cnt c.shared ≠ 0 ↔ ∃ t, p (c.own t) = true := by
  rw [h]
  exact tally_ne_zero

/-- The counter is zero when nobody is counted. -/
theorem Counts.eq_zero (h : Counts cnt p c) : cnt c.shared = 0 ↔ ∀ t, p (c.own t) = false := by
  rw [h]
  exact tally_eq_zero

end Counts

/-! ## Tokens -/

section Tokens

variable {κ : Type*}

/-- Some thread has the token. -/
def Has (f : L → Option κ) (c : Threads T S L) (k : κ) : Prop := ∃ t, f (c.own t) = some k

/-- No token is with two threads. -/
def Unique (f : L → Option κ) (c : Threads T S L) : Prop := ∀ t u k, f (c.own t) = some k → f (c.own u) = some k → t = u

end Tokens

/-! ## Turns -/

section Step

variable [DecidableEq T] (turn : T → S → L → ι → S × L)

/-- A turn of one thread. -/
def step (c : Threads T S L) (i : T × ι) : Threads T S L where
  shared := (turn i.1 c.shared (c.own i.1) i.2).1
  own := Function.update c.own i.1 (turn i.1 c.shared (c.own i.1) i.2).2

variable {turn} {i : T × ι} {t : T}

/-- The thread that takes the turn moves. -/
theorem own_step_self : (step turn c i).own i.1 = (turn i.1 c.shared (c.own i.1) i.2).2 := update_self ..

/-- The other threads stay where they are. -/
theorem own_step_of_ne (h : t ≠ i.1) : (step turn c i).own t = c.own t := update_of_ne h ..

/-- What a turn keeps for its own thread and does not take from another holds for all. -/
theorem forall_own_step {P : T → S → L → Prop} (hn : P i.1 (step turn c i).shared (turn i.1 c.shared (c.own i.1) i.2).2)
    (ho : ∀ t, t ≠ i.1 → P t (step turn c i).shared (c.own t)) (t : T) : P t (step turn c i).shared ((step turn c i).own t) := by
  by_cases h : t = i.1
  · subst h
    rw [own_step_self]
    exact hn
  · rw [own_step_of_ne h]
    exact ho t h

/-- A thread that does something stays one, if the turn does not take it from its own thread. -/
theorem exists_own_step {P : L → Prop} (hs : P (c.own i.1) → P (turn i.1 c.shared (c.own i.1) i.2).2) (h : ∃ t, P (c.own t)) :
    ∃ t, P ((step turn c i).own t) := by
  obtain ⟨t, ht⟩ := h
  refine ⟨t, ?_⟩
  by_cases heq : t = i.1
  · subst heq
    rw [own_step_self]
    exact hs ht
  · rw [own_step_of_ne heq]
    exact ht

variable {owner : S → Option T} {inside : L → Bool}

/-- A turn that keeps the lock for its own thread keeps it for all. -/
theorem Locks.step (h : Locks owner inside c)
    (htr : TurnLocks owner inside i.1 c.shared (c.own i.1) (step turn c i).shared (turn i.1 c.shared (c.own i.1) i.2).2) :
    Locks owner inside (step turn c i) := by
  intro t
  have hs := h i.1
  by_cases ht : t = i.1
  · subst ht
    rw [own_step_self]
    rcases htr with ⟨ho, hi⟩ | ⟨_, ho, hi⟩ | ⟨_, ho, hi⟩
    · rw [ho, hi]
      exact hs
    · rw [ho, hi]
      simp
    · rw [ho, hi]
      simp
  · rw [own_step_of_ne ht]
    have hot := h t
    rcases htr with ⟨ho, _⟩ | ⟨hf, ho, _⟩ | ⟨hin, ho, _⟩
    · rw [ho]
      exact hot
    · -- nobody was inside, and the one that is now is another
      rw [hf] at hot
      rw [ho, ← hot]
      simp [Ne.symm ht]
    · rw [hs.mpr hin] at hot
      rw [ho, ← hot]
      simp [Ne.symm ht]

/-- The same for what a thread holds. -/
theorem Holds.step (h : Holds owner inside c)
    (htr : TurnHolds owner inside i.1 c.shared (c.own i.1) (step turn c i).shared (turn i.1 c.shared (c.own i.1) i.2).2) :
    Holds owner inside (step turn c i) := by
  refine forall_own_step (P := fun t s l => owner s = some t → inside l = true) (fun hmn => ?_)
    (fun t ht hh => h t ((htr.other ht).mp hh))
  rcases htr with ⟨hs, hi⟩ | ⟨-, -, hi⟩ | ⟨-, hf⟩
  · rw [hs] at hmn
    exact hi hmn (h _ hmn)
  · exact hi
  · exact absurd (hf.symm.trans hmn) (some_ne_none i.1).symm

section Tokens

variable {κ : Type*} {f : L → Option κ} {k : κ}

/-- Who has a value after a turn. -/
theorem has_step : Has f (step turn c i) k ↔
    f (turn i.1 c.shared (c.own i.1) i.2).2 = some k ∨ ∃ t, t ≠ i.1 ∧ f (c.own t) = some k := by
  constructor
  · rintro ⟨t, ht⟩
    by_cases h : t = i.1
    · subst h
      rw [own_step_self] at ht
      exact .inl ht
    · rw [own_step_of_ne h] at ht
      exact .inr ⟨t, h, ht⟩
  · rintro (hs | ⟨t, hne, ht⟩)
    · exact ⟨i.1, by rw [own_step_self]; exact hs⟩
    · exact ⟨t, by rw [own_step_of_ne hne]; exact ht⟩

/-- A thread that keeps what it has changes nothing. -/
theorem has_step_keep (h : f (turn i.1 c.shared (c.own i.1) i.2).2 = f (c.own i.1)) : Has f (step turn c i) k ↔ Has f c k := by
  rw [has_step, h]
  constructor
  · rintro (hs | ⟨t, _, ht⟩)
    · exact ⟨_, hs⟩
    · exact ⟨t, ht⟩
  · rintro ⟨t, ht⟩
    by_cases hne : t = i.1
    · exact .inl (hne ▸ ht)
    · exact .inr ⟨t, hne, ht⟩

/-- A thread that gets a token adds it. -/
theorem has_step_get {k' : κ} (hb : f (c.own i.1) = none) (ha : f (turn i.1 c.shared (c.own i.1) i.2).2 = some k') :
    Has f (step turn c i) k ↔ Has f c k ∨ k = k' := by
  rw [has_step, ha]
  constructor
  · rintro (hs | ⟨t, _, ht⟩)
    · exact .inr (some.inj hs).symm
    · exact .inl ⟨t, ht⟩
  · rintro (⟨t, ht⟩ | rfl)
    · refine .inr ⟨t, ?_, ht⟩
      rintro rfl
      rw [hb] at ht
      exact some_ne_none k ht.symm
    · exact .inl rfl

/-- A thread that gives a token away takes it from all. -/
theorem has_step_drop {k' : κ} (hu : Unique f c) (hb : f (c.own i.1) = some k')
    (ha : f (turn i.1 c.shared (c.own i.1) i.2).2 = none) : Has f (step turn c i) k ↔ Has f c k ∧ k ≠ k' := by
  rw [has_step, ha]
  constructor
  · rintro (hs | ⟨t, hne, ht⟩)
    · cases hs
    · refine ⟨⟨t, ht⟩, ?_⟩
      rintro rfl
      exact hne (hu t i.1 k ht hb)
  · rintro ⟨⟨t, ht⟩, hk⟩
    refine .inr ⟨t, ?_, ht⟩
    rintro rfl
    exact hk (some.inj (ht.symm.trans hb))

/-- Tokens stay with one thread each, when one that a thread gets was with nobody else. -/
theorem Unique.step (hu : Unique f c) (hg : ∀ k', f (turn i.1 c.shared (c.own i.1) i.2).2 = some k' →
    ∀ t, t ≠ i.1 → f (c.own t) ≠ some k') : Unique f (step turn c i) := by
  intro t u k' ht hk
  by_cases h1 : t = i.1 <;> by_cases h2 : u = i.1
  · rw [h1, h2]
  · subst h1
    rw [own_step_self] at ht
    rw [own_step_of_ne h2] at hk
    exact absurd hk (hg k' ht u h2)
  · subst h2
    rw [own_step_self] at hk
    rw [own_step_of_ne h1] at ht
    exact absurd ht (hg k' hk t h1)
  · rw [own_step_of_ne h1] at ht
    rw [own_step_of_ne h2] at hk
    exact hu t u k' ht hk

end Tokens

variable [Fintype T] {p : L → Bool} {cnt : S → ℕ}

/-- One thread changes: it is counted anew. -/
theorem tally_update (p : L → Bool) (own : T → L) (t : T) (x : L) :
    tally p (update own t x) + (p (own t)).toNat = tally p own + (p x).toNat := by
  have hs : ∀ own' : T → L, tally p own' =
      (p (own' t)).toNat + ((univ.erase t).filter fun u => p (own' u) = true).card := by
    intro own'
    unfold tally
    rw [← insert_erase (mem_univ t), filter_insert, erase_insert (notMem_erase t _)]
    cases hp : p (own' t) with
    | false => simp
    | true =>
      rw [if_pos rfl, card_insert_of_notMem (by simp), Nat.add_comm]
      rfl
  have hr : ((univ.erase t).filter fun u => p (update own t x u) = true) =
      (univ.erase t).filter fun u => p (own u) = true := by
    refine filter_congr fun u hu => ?_
    rw [update_of_ne (ne_of_mem_erase hu)]
  rw [hs (update own t x), hs own, hr, update_self]
  omega

/-- The counter follows the thread that takes the turn. -/
theorem Counts.step (h : Counts cnt p c)
    (ht : (p (c.own i.1) = true → 0 < cnt c.shared) → cnt (step turn c i).shared + (p (c.own i.1)).toNat =
      cnt c.shared + (p (turn i.1 c.shared (c.own i.1) i.2).2).toNat) : Counts cnt p (step turn c i) := by
  have hu := tally_update p c.own i.1 (turn i.1 c.shared (c.own i.1) i.2).2
  have hc := ht fun hp => h.symm ▸ tally_pos hp
  unfold Counts at h ⊢
  rw [h] at hc
  change _ = tally p (update _ _ _)
  omega

end Step

/-! ## Runs that are written out -/

/-- Names for a few threads, and for what they share. -/
inductive Name
  | a
  | b
  | c
  deriving DecidableEq, Repr

theorem Name.nodup_all : (↑[Name.a, Name.b, Name.c] : Multiset Name).Nodup := by decide

theorem Name.mem_all (n : Name) : n ∈ (⟨↑[Name.a, Name.b, Name.c], Name.nodup_all⟩ : Finset Name) := by
  cases n <;> decide

/-- There are three of them. -/
instance Name.fintype : Fintype Name := ⟨⟨↑[Name.a, Name.b, Name.c], Name.nodup_all⟩, Name.mem_all⟩

end Threads

end Libft
