import Mathlib.Data.List.Nodup
import Mathlib.Logic.Function.Basic

/-!
# Lists that are linked in a table

The members of a list are entries of a table, and every entry has the links to its neighbours. `Leads` says that following the links
from a place gives a list and comes to its end. A `Chain` is linked forwards only, a `Deque` in both directions; each operation on the
links is an operation on the list they lead through.
-/

namespace Libft

open Function List
open Function (update)

variable {α : Type*}

/-! ## Following links -/

/-- Following the links from a place gives the list, and then the end. -/
def Leads (next : α → Option α) : Option α → List α → Prop
  | p, [] => p = none
  | p, i :: l => p = some i ∧ Leads next (next i) l

/-- Follows the links from a place, for a number of steps at most. -/
def follow (next : α → Option α) : ℕ → Option α → List α
  | 0, _ => []
  | _ + 1, none => []
  | n + 1, some i => i :: follow next n (next i)

variable {next : α → Option α} {p v : Option α} {i j : α} {l l₁ l₂ : List α}

/-- Following the links gives the list they lead through. -/
theorem follow_eq (h : Leads next p l) {n : ℕ} (hn : l.length ≤ n) : follow next n p = l := by
  induction l generalizing p n with
  | nil =>
    rw [show p = none from h]
    cases n <;> rfl
  | cons i l ih =>
    obtain ⟨rfl, hr⟩ := h
    cases n with
    | zero => exact absurd hn (Nat.not_succ_le_zero _)
    | succ n => exact congrArg (i :: ·) (ih hr (Nat.le_of_succ_le_succ hn))

/-- Only the links of the list matter. -/
theorem Leads.congr {next' : α → Option α} (h : Leads next p l) (heq : ∀ i ∈ l, next' i = next i) : Leads next' p l := by
  induction l generalizing p with
  | nil => exact h
  | cons i l ih =>
    refine ⟨h.1, ?_⟩
    rw [heq i mem_cons_self]
    exact ih h.2 (forall_mem_cons.mp heq).2

/-- The links start at the head. -/
theorem Leads.head (h : Leads next p l) : p = l.head? := by
  cases l with
  | nil => exact h
  | cons i l => exact h.1

/-- The link of an entry is the entry behind it. -/
theorem Leads.next_eq (h : Leads next p (l₁ ++ i :: l₂)) : next i = l₂.head? := by
  induction l₁ generalizing p with
  | nil => exact h.2.head
  | cons j l₁ ih => exact ih h.2

variable [DecidableEq α]

/-- The link of another node does not matter. -/
theorem Leads.update (h : Leads next p l) (hi : i ∉ l) : Leads (update next i v) p l :=
  h.congr fun j hj => update_of_ne (fun heq : j = i => hi (heq ▸ hj)) v next

/-- The link to an entry, from the one before it or from outside, is set to another. -/
def relink (next : α → Option α) (p before v : Option α) : Option α × (α → Option α) :=
  match before with
  | none => (v, next)
  | some j => (p, Function.update next j v)

/-- Past an entry to the one after it. -/
theorem Leads.cut (h : Leads next p (l₁ ++ i :: l₂)) (hnd : (l₁ ++ i :: l₂).Nodup) :
    Leads (relink next p l₁.getLast? (next i)).2 (relink next p l₁.getLast? (next i)).1 (l₁ ++ l₂) := by
  induction l₁ generalizing p with
  | nil => exact h.2
  | cons j l₁ ih =>
    obtain ⟨rfl, hr⟩ := h
    rw [cons_append, nodup_cons] at hnd
    have hj : j ∉ l₁ ++ l₂ := fun hm => hnd.1 (by simp only [mem_append, mem_cons] at hm ⊢; tauto)
    cases hl : l₁.getLast? with
    | none =>
      rw [getLast?_eq_none_iff] at hl
      subst hl
      refine ⟨rfl, ?_⟩
      simp only [relink, getLast?_singleton, update_self]
      exact Leads.update hr.2 hj
    | some k =>
      have hc := ih hr hnd.2
      rw [hl] at hc
      have hk : k ∈ l₁ := mem_of_getLast? hl
      have hjk : j ≠ k := fun heq => hnd.1 (by rw [heq]; exact mem_append_left _ hk)
      rw [show (j :: l₁).getLast? = some k by rw [getLast?_cons, hl]; rfl]
      refine ⟨rfl, ?_⟩
      simp only [relink] at hc ⊢
      rw [update_of_ne hjk]
      exact hc

/-- On from the last entry to a new one. -/
theorem Leads.snoc (h : Leads next p l) (hnd : l.Nodup) (hi : i ∉ l) :
    Leads (relink (Function.update next i none) p l.getLast? (some i)).2
      (relink (Function.update next i none) p l.getLast? (some i)).1 (l ++ [i]) := by
  induction l generalizing p with
  | nil => exact ⟨rfl, update_self ..⟩
  | cons j l ih =>
    obtain ⟨rfl, hr⟩ := h
    rw [nodup_cons] at hnd
    rw [mem_cons, not_or] at hi
    have hld := ih hr hnd.2 hi.2
    cases hl : l.getLast? with
    | none =>
      rw [getLast?_eq_none_iff] at hl
      subst hl
      refine ⟨rfl, ?_⟩
      simp only [relink, getLast?_singleton, update_self]
      exact ⟨rfl, by rw [update_of_ne hi.1]; exact update_self ..⟩
    | some k =>
      rw [hl] at hld
      have hjk : j ≠ k := fun heq => hnd.1 (heq ▸ mem_of_getLast? hl)
      rw [show (j :: l).getLast? = some k by rw [getLast?_cons, hl]; rfl]
      refine ⟨rfl, ?_⟩
      simp only [relink] at hld ⊢
      rw [update_of_ne hjk, update_of_ne (Ne.symm hi.1)]
      exact hld

/-! ## Linked forwards -/

/-- The first entry, and the next of each. -/
structure Chain (α : Type*) where
  first : Option α := none
  next : α → Option α := fun _ => none

namespace Chain

/-- The chain goes through the list. -/
def Is (c : Chain α) (l : List α) : Prop := Leads c.next c.first l ∧ l.Nodup

/-- Link a node in front. -/
def push (c : Chain α) (i : α) : Chain α := ⟨some i, Function.update c.next i c.first⟩

/-- Looks for an entry, with the one before it at hand, and takes it out. -/
def removeFrom (c : Chain α) (i : α) : Option α → List α → Chain α
  | _, [] => c
  | before, j :: rest =>
    if j = i then
      ⟨(relink c.next c.first before (c.next i)).1, Function.update (relink c.next c.first before (c.next i)).2 i none⟩
    else removeFrom c i (some j) rest

variable {c : Chain α}

/-- A pushed node is the head. -/
theorem Is.push (h : c.Is l) (hi : i ∉ l) : (c.push i).Is (i :: l) := by
  refine ⟨⟨rfl, ?_⟩, nodup_cons.mpr ⟨hi, h.2⟩⟩
  simp only [Chain.push, update_self]
  exact h.1.update hi

/-- The link of an entry outside is of no matter. -/
theorem Is.update (h : c.Is l) (hi : i ∉ l) (v : Option α) : Is { c with next := update c.next i v } l :=
  ⟨h.1.update hi, h.2⟩

/-- What the search does with a node that is there. -/
theorem removeFrom_eq (c : Chain α) (hi : i ∉ l₁) (before : Option α) : c.removeFrom i before (l₁ ++ i :: l₂) =
    ⟨(relink c.next c.first (l₁.getLast?.or before) (c.next i)).1,
      update (relink c.next c.first (l₁.getLast?.or before) (c.next i)).2 i none⟩ := by
  induction l₁ generalizing before with
  | nil => exact if_pos rfl
  | cons j l₁ ih =>
    rw [mem_cons, not_or] at hi
    rw [cons_append, removeFrom, if_neg (Ne.symm hi.1), ih hi.2, getLast?_cons]
    cases l₁.getLast? <;> rfl

/-- A node that is not there is not removed. -/
theorem removeFrom_of_not_mem (c : Chain α) (hi : i ∉ l) (before : Option α) : c.removeFrom i before l = c := by
  induction l generalizing before with
  | nil => rfl
  | cons j l ih =>
    rw [mem_cons, not_or] at hi
    rw [removeFrom, if_neg (Ne.symm hi.1), ih hi.2]

/-- Removing a node erases it from the list. -/
theorem Is.removeFrom (h : c.Is l) : (c.removeFrom i none l).Is (l.erase i) := by
  obtain ⟨hl, hnd⟩ := h
  refine ⟨?_, hnd.erase i⟩
  by_cases hi : i ∈ l
  · obtain ⟨l₁, l₂, rfl, hl1⟩ := eq_append_cons_of_mem hi
    have hi2 : i ∉ l₂ := (nodup_cons.mp (nodup_append.mp hnd).2.1).1
    rw [Chain.removeFrom_eq c hl1, Option.or_none, erase_append_right _ hl1, erase_cons_head]
    exact (hl.cut hnd).update (by simp [hl1, hi2])
  · rw [Chain.removeFrom_of_not_mem c hi, erase_of_not_mem hi]
    exact hl

end Chain

/-! ## Linked in both directions -/

/-- The first and the last entry, and the neighbours of each. -/
structure Deque (α : Type*) where
  first : Option α := none
  last : Option α := none
  next : α → Option α := fun _ => none
  prev : α → Option α := fun _ => none

namespace Deque

/-- The links go through the list forwards, and through it backwards. -/
def Is (d : Deque α) (l : List α) : Prop := Leads d.next d.first l ∧ Leads d.prev d.last l.reverse ∧ l.Nodup

/-- A new entry at the end. -/
def append (d : Deque α) (i : α) : Deque α where
  first := (relink (Function.update d.next i none) d.first d.last (some i)).1
  next := (relink (Function.update d.next i none) d.first d.last (some i)).2
  last := some i
  prev := Function.update d.prev i d.last

/-- The two neighbours of an entry are linked to each other. -/
def unlink (d : Deque α) (i : α) : Deque α where
  first := (relink d.next d.first (d.prev i) (d.next i)).1
  next := Function.update (relink d.next d.first (d.prev i) (d.next i)).2 i none
  last := (relink d.prev d.last (d.next i) (d.prev i)).1
  prev := Function.update (relink d.prev d.last (d.next i) (d.prev i)).2 i none

variable {d : Deque α}

omit [DecidableEq α] in
/-- The last link is the last entry. -/
theorem Is.last (h : d.Is l) : d.last = l.getLast? := by
  rw [h.2.1.head, head?_reverse]

/-- An appended node is the last entry. -/
theorem Is.append (h : d.Is l) (hi : i ∉ l) : (d.append i).Is (l ++ [i]) := by
  obtain ⟨hnx, hp, hnd⟩ := h
  refine ⟨?_, ?_, ?_⟩
  · have hl : d.last = l.getLast? := by rw [hp.head, head?_reverse]
    simp only [Deque.append, hl]
    exact hnx.snoc hnd hi
  · rw [reverse_append, reverse_singleton, singleton_append]
    refine ⟨rfl, ?_⟩
    simp only [Deque.append, update_self]
    exact hp.update (by simpa using hi)
  · exact nodup_append.mpr ⟨hnd, nodup_singleton i, fun a ha b hb => by
      rw [mem_singleton.mp hb]; exact fun heq => hi (heq ▸ ha)⟩

omit [DecidableEq α] in
/-- The next link is the entry behind. -/
theorem Is.next_eq (h : d.Is (l₁ ++ i :: l₂)) : d.next i = l₂.head? := h.1.next_eq

omit [DecidableEq α] in
/-- The previous link is the entry before. -/
theorem Is.prev_eq (h : d.Is (l₁ ++ i :: l₂)) : d.prev i = l₁.getLast? := by
  have hp := h.2.1
  rw [reverse_append, reverse_cons, append_assoc, singleton_append] at hp
  rw [hp.next_eq, head?_reverse]

/-- The links of an entry outside are of no matter. -/
theorem Is.update (h : d.Is l) (hi : i ∉ l) (v w : Option α) : Is { d with prev := update d.prev i v, next := update d.next i w } l :=
  ⟨h.1.update hi, h.2.1.update (by rwa [mem_reverse]), h.2.2⟩

/-- An unlinked node is gone, its neighbours are linked. -/
theorem Is.unlink (h : d.Is (l₁ ++ i :: l₂)) : (d.unlink i).Is (l₁ ++ l₂) := by
  have hn := h.next_eq
  have hp := h.prev_eq
  obtain ⟨hnx, hpr, hnd⟩ := h
  have hi : i ∉ l₁ ++ l₂ := by
    have := nodup_middle.mp hnd
    exact (nodup_cons.mp this).1
  refine ⟨?_, ?_, ?_⟩
  · have hc := hnx.cut hnd
    simp only [Deque.unlink, hp]
    exact hc.update hi
  · have hr : (l₁ ++ i :: l₂).reverse = l₂.reverse ++ i :: l₁.reverse := by simp
    rw [hr] at hpr
    have hc := hpr.cut (hr ▸ nodup_reverse.mpr hnd)
    rw [getLast?_reverse] at hc
    simp only [Deque.unlink, hn]
    rw [reverse_append]
    exact hc.update (by simpa [or_comm] using hi)
  · exact (nodup_cons.mp (nodup_middle.mp hnd)).2

end Deque

end Libft
