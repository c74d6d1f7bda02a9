import Mathlib.Data.List.AList

/-!
# Association lists in the order of insertion

An array of pairs with distinct keys: a new key is put at the end, one that is there keeps its place. `AList` has the rest; what is
added is this insertion, the restriction to some of the entries, and what a lookup finds after each of them.
-/

namespace AList

open List Option

variable {κ α : Type*} [DecidableEq κ] {s : AList fun _ : κ => α}

/-- A value is put in the place of its key, or at the end. -/
def put (a : κ) (b : α) (s : AList fun _ : κ => α) : AList fun _ : κ => α :=
  if h : a ∈ s then s.replace a b
  else
    { entries := s.entries ++ [⟨a, b⟩]
      nodupKeys := by
        have hnotMem : a ∉ s.entries.keys := h
        rw [List.NodupKeys, List.keys, List.map_append]
        refine List.Nodup.append s.nodupKeys (by simp) ?_
        intro k hk hka
        obtain rfl : k = a := by simpa using hka
        exact hnotMem hk }

/-- The entries that pass a test. -/
def restrict (p : κ → α → Bool) (s : AList fun _ : κ => α) : AList fun _ : κ => α where
  entries := s.entries.filter fun e => p e.1 e.2
  nodupKeys := s.nodupKeys.sublist List.filter_sublist

omit [DecidableEq κ] in
@[simp] theorem entries_restrict (p : κ → α → Bool) (s : AList fun _ : κ => α) :
    (s.restrict p).entries = s.entries.filter fun e => p e.1 e.2 := rfl

/-- A replacement gives a key that is there another value, and changes no other. -/
theorem lookup_replace {a : κ} (h : a ∈ s) (a' : κ) (b : α) : (s.replace a b).lookup a' = if a' = a then some b else s.lookup a' := by
  obtain ⟨l, hl⟩ := s
  have hm : a ∈ l.keys := h
  show dlookup a' (kreplace a b l) = if a' = a then some b else dlookup a' l
  clear hl h
  induction l with
  | nil => simp at hm
  | cons e l ih =>
    obtain ⟨k, v⟩ := e
    by_cases hk : a = k
    · subst hk
      have hc : kreplace a b (⟨a, v⟩ :: l) = ⟨a, b⟩ :: l := by simp [kreplace]
      rw [hc]
      by_cases ha : a' = a
      · subst ha
        simp
      · simp [ha, dlookup_cons_ne]
    · have hr : a ∈ l.keys := by simpa [hk] using hm
      have hc : kreplace a b (⟨k, v⟩ :: l) = ⟨k, v⟩ :: kreplace a b l := by simp [kreplace, hk]
      rw [hc]
      by_cases ha : a' = k
      · subst ha
        simp [Ne.symm hk]
      · have hne := fun tl => dlookup_cons_ne tl (⟨k, v⟩ : Sigma fun _ : κ => α) ha
        rw [hne, hne, ih hr]

/-- After an insertion the key has the value, and every other key what it had. -/
theorem lookup_put (a a' : κ) (b : α) (s : AList fun _ : κ => α) : (s.put a b).lookup a' = if a' = a then some b else s.lookup a' := by
  unfold put
  split_ifs with hm ha ha
  · rw [lookup_replace hm, if_pos ha]
  · rw [lookup_replace hm, if_neg ha]
  · subst ha
    have hno : dlookup a' s.entries = none := lookup_eq_none.2 hm
    show dlookup a' (s.entries ++ [⟨a', b⟩]) = some b
    simp [dlookup_append, hno]
  · have hl : dlookup a' [(⟨a, b⟩ : Sigma fun _ : κ => α)] = none :=
      (dlookup_cons_ne [] (⟨a, b⟩ : Sigma fun _ : κ => α) ha).trans (dlookup_nil a')
    show dlookup a' (s.entries ++ [⟨a, b⟩]) = dlookup a' s.entries
    rw [dlookup_append, hl, or_none]

/-- A restriction keeps the value of a key if it passes the test. -/
theorem lookup_restrict (p : κ → α → Bool) (a : κ) (s : AList fun _ : κ => α) : (s.restrict p).lookup a = (s.lookup a).filter (p a) := by
  ext b
  rw [mem_def.symm, mem_lookup_iff, entries_restrict, mem_filter]
  simp only [filter_eq_some_iff]
  rw [← mem_def, mem_lookup_iff]

omit [DecidableEq κ] in
/-- A restriction that drops nothing is the list itself. -/
theorem restrict_eq_self_iff (p : κ → α → Bool) (s : AList fun _ : κ => α) : s.restrict p = s ↔ ∀ e ∈ s.entries, p e.1 e.2 := by
  rw [← filter_eq_self]
  constructor
  · intro h
    exact congrArg AList.entries h
  · intro h
    exact AList.ext h

end AList
