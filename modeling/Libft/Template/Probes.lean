import Libft.Template.UnorderedMap

/-!
# What the probing loops of the unordered map find

Every loop ends within as many turns as there are slots. A search finds a key that is reached and no other, a new entry goes to the
first empty slot from its home, and a doubled table holds what the old one held.
-/

namespace Libft.Template.UnorderedMap

open List Probing Option Finmap Nat

variable {K V : Type} {hash : K → ℕ} {fuel : ℕ} {m : UnorderedMap K V} {M : Finmap fun _ : K => V} {key : K} {val : V}

@[simp] theorem capacity_write (m : UnorderedMap K V) (i : ℕ) (x : Option (K × V)) (size : ℕ) :
    (m.write i x size).capacity = m.capacity := length_set

@[simp] theorem size_write (m : UnorderedMap K V) (i : ℕ) (x : Option (K × V)) (size : ℕ) : (m.write i x size).size = size := rfl

theorem hashKey_lt (hash : K → ℕ) (m : UnorderedMap K V) (key : K) : m.hashKey hash key < m.capacity := mod_lt _ m.hasStorage

/-- The index of an entry is not the one that stands for none. -/
theorem ne_capacity_of_slot {i : ℕ} {e : K × V} (h : m.slot i = some e) : i ≠ m.capacity := Nat.ne_of_lt (lt_of_slot h)

/-- The home of a key in a table of this capacity. -/
def home (hash : K → ℕ) (capacity : ℕ) (key : K) : ℕ := hash key % capacity

/-- What every operation finds and leaves: the table holds the map, every entry is reached, the size is counted, and more than half
of the slots are occupied at most where the last new key doubled the table. -/
structure Sound [DecidableEq K] (hash : K → ℕ) (m : UnorderedMap K V) (M : Finmap fun _ : K => V) : Prop where
  holds : Holds m.slots M
  reached : Reached (home hash m.capacity) m.slots
  size : m.size = M.keys.card
  load : 2 * m.size ≤ m.capacity + 2

variable {ss : List (Option (K × V))}

/-- Once as many entries are gone as there were, no slot is occupied. -/
theorem destroyElements_eq {r : ℕ} (h : occupied ss ≤ r) : destroyElements ss r = replicate ss.length none := by
  induction ss generalizing r with
  | nil => rfl
  | cons x tl ih =>
    rw [destroyElements, length_cons, replicate_succ]
    cases x with
    | none =>
      have hr : occupied (none :: tl : List (Option (K × V))) = occupied tl := countP_cons_of_neg (by simp)
      split
      · rw [ih (by simpa [hr] using h)]
      · next hn =>
        -- none remain: what is left is empty already
        obtain rfl : r = 0 := by omega
        have ha : ∀ y ∈ tl, y = none := fun y hy => by
          rw [hr] at h
          simpa using countP_eq_zero.mp (le_zero.mp h) y hy
        rw [eq_replicate_of_mem ha]
        simp
    | some e =>
      have hr : occupied (some e :: tl) = occupied tl + 1 := countP_cons_of_pos rfl
      rw [if_pos (by omega), ih (by simp only [isSome_some, if_true]; omega)]

/-! ## Searches -/

section Search

variable [DecidableEq K]

theorem findIndex_of_absent (hf : m.capacity ≤ fuel) (ha : ∀ i e, m.slot i = some e → e.1 ≠ key) :
    m.findIndex hash fuel key = some m.capacity := by
  have hs := hashKey_lt hash m key
  unfold findIndex
  split
  · rfl
  · -- the search ends at the first slot that is empty or the last before its start
    obtain ⟨p, hp, he, hps⟩ := exists_first hs
      (P := fun t => m.slot t = none ∨ (t + 1) % m.capacity = m.hashKey hash key) (by
        refine ⟨if m.hashKey hash key = 0 then m.capacity - 1 else m.hashKey hash key - 1, ?_, .inr ?_⟩
        · split <;> omega
        · split
          · next h =>
            rw [h, Nat.sub_add_cancel (by omega), Nat.mod_self]
          · rw [Nat.sub_add_cancel (by omega), Nat.mod_eq_of_lt hs])
    refine walk_eq hs hp hf (fun t ht hb => ?_) ?_
    · have hg := hps t ht hb
      rw [not_or] at hg
      cases ht : m.slot t with
      | none => exact absurd ht hg.1
      | some e => simp only [findTurn, ht, if_neg (ha t e ht), if_neg hg.2]
    · cases ht : m.slot p with
      | none => simp only [findTurn, ht]
      | some e => simp only [findTurn, ht, if_neg (ha p e ht), if_pos (he.resolve_left (by simp [ht]))]

theorem findIndex_of_slot (hf : m.capacity ≤ fuel) (hsz : m.size ≠ 0) (hh : Holds m.slots M)
    (hr : Reached (home hash m.capacity) m.slots) {i : ℕ} (hi : m.slot i = some (key, val)) : m.findIndex hash fuel key = some i := by
  have hs := hashKey_lt hash m key
  have hil : i < m.capacity := lt_of_slot hi
  unfold findIndex
  rw [if_neg hsz]
  refine walk_eq hs hil hf (fun t ht hb => ?_) ?_
  · cases hsl : m.slot t with
    | none => exact absurd hsl (hr i _ hi t ht hb)
    | some e =>
      have hti : t ≠ i := by
        rintro rfl
        unfold Between at hb
        omega
      have hne : e.1 ≠ key := fun h => hti (hh.distinct hsl hi h)
      simp only [findTurn, hsl, if_neg hne, if_neg (succ_mod_ne ht hil hb)]
  · simp only [findTurn, hi, if_pos]

/-- A search gives the slot of a key the map has. -/
theorem Sound.findIndex_some (h : Sound hash m M) (hf : m.capacity ≤ fuel) (hk : M.lookup key = some val) :
    ∃ i, m.findIndex hash fuel key = some i ∧ m.slot i = some (key, val) := by
  obtain ⟨i, hi⟩ := (h.holds.entries key val).mpr hk
  have hs : m.size ≠ 0 := by
    rw [h.size]
    exact Finset.card_ne_zero_of_mem (h.holds.mem_keys hi)
  exact ⟨i, findIndex_of_slot hf hs h.holds h.reached hi, hi⟩

/-- A search for a key the map does not have gives the capacity. -/
theorem Sound.findIndex_none (h : Sound hash m M) (hf : m.capacity ≤ fuel) (hk : M.lookup key = none) :
    m.findIndex hash fuel key = some m.capacity :=
  findIndex_of_absent hf fun _ _ hs => h.holds.ne_of_lookup hk hs

end Search

/-! ## Entries placed -/

/-- An entry goes to the first empty slot from its home. -/
theorem placeNew_eq (hash : K → ℕ) (key : K) (val : V) (hf : m.capacity ≤ fuel) (hr : ∃ i < m.capacity, m.slot i = none) :
    ∃ p < m.capacity, m.slot p = none ∧ (∀ t < m.capacity, Between (home hash m.capacity key) p t → m.slot t ≠ none) ∧
      m.placeNew hash fuel key val = some (.success, m.write p (some (key, val)) (m.size + 1)) := by
  have hs := hashKey_lt hash m key
  obtain ⟨p, hp, hn, hps⟩ := exists_first hs hr
  refine ⟨p, hp, hn, hps, ?_⟩
  have hw : walk m.capacity (m.placeTurn (m.hashKey hash key)) fuel (m.hashKey hash key) = some (some p) := by
    refine walk_eq hs hp hf (fun t ht hb => ?_) (by simp only [placeTurn, hn])
    cases hsl : m.slot t with
    | none => exact absurd hsl (hps t ht hb)
    | some e => simp only [placeTurn, hsl, if_neg (succ_mod_ne ht hp hb)]
  unfold placeNew
  simp only [hw]
  rfl

theorem findEmpty_eq (start : ℕ) (hs : start < ss.length) (hf : ss.length ≤ fuel)
    (hr : ∃ i < ss.length, Probing.slot ss i = none) :
    ∃ p < ss.length, Probing.slot ss p = none ∧ (∀ t < ss.length, Between start p t → Probing.slot ss t ≠ none) ∧
      findEmpty fuel ss start = some p := by
  obtain ⟨p, hp, hn, hps⟩ := exists_first hs hr
  refine ⟨p, hp, hn, hps, walk_eq hs hp hf (fun t ht hb => ?_) (by simp [hn])⟩
  rw [if_pos (isSome_iff_ne_none.mpr (hps t ht hb))]

theorem resize_of_no_memory (nc : ℕ) : m.resize hash fuel false nc = some (.noMemory, m) := by
  unfold resize
  split
  · rfl
  · rfl

section Rehash

variable [DecidableEq K] {oldSize ins : ℕ} {old ss : List (Option (K × V))} {moved : Finmap fun _ : K => V}

/-- No key in two of the old slots. -/
def Apart (x y : Option (K × V)) : Prop := ∀ e e', x = some e → y = some e' → e.1 ≠ e'.1

theorem Holds.pairwise_apart (h : Holds ss M) : ss.Pairwise Apart := by
  rw [pairwise_iff_getElem]
  intro i j hi hj hij e e' he he' hk
  exact absurd (h.distinct ((slot_eq hi).trans he) ((slot_eq hj).trans he') hk) (by omega)

theorem lookup_iff_mem (h : Holds ss M) (k : K) (v : V) : M.lookup k = some v ↔ some (k, v) ∈ ss := by
  rw [← h.entries, mem_iff_getElem]
  constructor
  · rintro ⟨i, hi⟩
    exact ⟨i, lt_of_slot hi, (slot_eq _).symm.trans hi⟩
  · rintro ⟨i, hil, hi⟩
    exact ⟨i, (slot_eq hil).trans hi⟩

/-- Nothing is left to be moved. -/
theorem holds_of_moved (hh : Holds ss moved) (hno : ∀ e, some e ∉ old)
    (hM : ∀ k v, M.lookup k = some v ↔ moved.lookup k = some v ∨ some (k, v) ∈ old) : Holds ss M := by
  have hs : M = moved := ext_lookup fun k => ext fun v => (hM k v).trans (or_iff_left (hno _))
  exact hs ▸ hh

/-- The slots of the old table, one by one: what is moved and what is still to be moved make up the map. -/
theorem rehash_spec (hh : Holds ss moved) (hr : Reached (home hash ss.length) ss)
    (hi : ins = moved.keys.card) (ht : ins + occupied old = oldSize) (hrm : oldSize ≤ ss.length)
    (hf : ss.length ≤ fuel) (ha : old.Pairwise Apart) (hn : ∀ e, some e ∈ old → moved.lookup e.1 = none)
    (hM : ∀ k v, M.lookup k = some v ↔ moved.lookup k = some v ∨ some (k, v) ∈ old) :
    ∃ ss', rehash hash fuel oldSize old ins ss = some (ss', oldSize) ∧ ss'.length = ss.length ∧
      Holds ss' M ∧ Reached (home hash ss.length) ss' := by
  induction old generalizing ss moved ins with
  | nil =>
    refine ⟨ss, ?_, rfl, holds_of_moved hh (fun e => not_mem_nil) hM, hr⟩
    rw [rehash, ← ht]
    rfl
  | cons x tl ih =>
    cases x with
    | none =>
      have hrs : occupied (none :: tl : List (Option (K × V))) = occupied tl := countP_cons_of_neg (by simp)
      rw [hrs] at ht
      rw [rehash]
      split
      · exact ih hh hr hi ht hrm hf ha.of_cons (fun e he => hn e (mem_cons_of_mem _ he)) (fun k v => by simpa using hM k v)
      · next hd =>
        have hz : occupied tl = 0 := by omega
        refine ⟨ss, by rw [show ins = oldSize by omega], rfl, holds_of_moved hh (fun e he => ?_) hM, hr⟩
        exact countP_eq_zero.mp hz (some e) (by simpa using he) rfl
    | some ent =>
      have hrs : occupied (some ent :: tl) = occupied tl + 1 := countP_cons_of_pos rfl
      rw [hrs] at ht
      have hl : moved.lookup ent.1 = none := hn ent mem_cons_self
      have hnil : ∃ i < ss.length, Probing.slot ss i = none := exists_empty (by rw [hh.count]; omega)
      obtain ⟨p, hp, hs, hps, hfn⟩ := findEmpty_eq (home hash ss.length ent.1) (mod_lt _ (by omega)) hf hnil
      have hpl : Holds (ss.set p (some ent)) (moved.insert ent.1 ent.2) := hh.place hp hs hl
      have hlen : (ss.set p (some ent)).length = ss.length := length_set
      have ha' := pairwise_cons.mp ha
      have hM' : ∀ k v, M.lookup k = some v ↔ (moved.insert ent.1 ent.2).lookup k = some v ∨ some (k, v) ∈ tl := by
        intro k v
        rw [hM, mem_cons]
        by_cases hk : k = ent.1
        · subst hk
          have hno : some (ent.1, v) ∉ tl := fun hm => ha'.1 _ hm ent _ rfl rfl rfl
          rw [hl, lookup_insert]
          simp only [hno, or_false, reduceCtorEq, false_or, some.injEq, Prod.ext_iff, true_and]
          exact eq_comm
        · rw [lookup_insert_of_ne _ hk]
          have hne : some (k, v) ≠ some ent := fun heq => hk (congrArg Prod.fst (some.inj heq))
          simp only [hne, false_or]
      rw [rehash, if_pos (by omega)]
      show ∃ ss', ((findEmpty fuel ss (home hash ss.length ent.1)).bind _) = some (ss', oldSize) ∧ _
      rw [hfn]
      show ∃ ss', rehash hash fuel oldSize tl (ins + 1) (ss.set p (some ent)) = some (ss', oldSize) ∧ _
      have hc : ins + 1 = (moved.insert ent.1 ent.2).keys.card := by
        rw [keys_insert, Finset.card_insert_of_notMem (notMem_keys hl), hi]
      have hnx := ih hpl (hlen.symm ▸ hr.place hp hps) hc (by omega) (by omega) (by omega) ha'.2
        (fun e he => by
          rw [lookup_insert_of_ne _ (Ne.symm (ha'.1 _ he ent e rfl rfl))]
          exact hn e (mem_cons_of_mem _ he)) hM'
      rw [hlen] at hnx
      exact hnx

/-- A table doubled, or left as it was when there is no memory. -/
theorem resize_spec (hash : K → ℕ) (hh : Holds m.slots M) (hs : m.size = M.keys.card) (hf : 2 * m.capacity ≤ fuel) :
    ∃ m', m.resize hash fuel true (m.capacity * 2) = some (.success, m') ∧ m'.capacity = m.capacity * 2 ∧ m'.size = m.size ∧
      Holds m'.slots M ∧ Reached (home hash m'.capacity) m'.slots := by
  have hp : 0 < m.capacity := m.hasStorage
  have hle : m.size ≤ m.capacity := hs.trans_le hh.card_le
  have hc : 0 + occupied m.slots = m.size := by rw [zero_add, hh.count, hs]
  have hl : (replicate (m.capacity * 2) (none : Option (K × V))).length = m.capacity * 2 := length_replicate
  obtain ⟨s', hrh, hn, hh', hr⟩ := rehash_spec (M := M) (Holds.empty (m.capacity * 2))
    (Reached.empty (home hash _) (m.capacity * 2)) rfl hc (by omega) (show _ ≤ fuel by omega) (Holds.pairwise_apart hh)
    (fun e _ => lookup_empty e.1) (fun k v => by simp [lookup_iff_mem hh])
  rw [hl] at hn hr
  unfold resize
  rw [dif_neg (by omega), if_neg (by decide)]
  split
  · next hno => exact absurd (hrh.symm.trans hno) (by simp)
  · next r hsm =>
    obtain rfl := some.inj (hrh.symm.trans hsm)
    refine ⟨_, rfl, hn, rfl, hh', ?_⟩
    rw [← hn] at hr
    exact hr

end Rehash

/-! ## Insertion -/

section Insert

variable [DecidableEq K] {al : Bool}

/-- A value stored in a slot with an entry. -/
theorem Sound.assignAt (h : Sound hash m M) {i : ℕ} {old : V} (hs : m.slot i = some (key, old)) :
    Sound hash (m.assignAt i val) (M.insert key val) := by
  have hw : m.assignAt i val = m.write i (some (key, val)) m.size := by
    unfold UnorderedMap.assignAt
    rw [hs]
    rfl
  rw [hw]
  refine ⟨h.holds.assign hs, ?_, ?_, ?_⟩
  · rw [capacity_write]
    exact h.reached.assign hs
  · rw [keys_insert, Finset.insert_eq_of_mem (h.holds.mem_keys hs)]
    exact h.size
  · rw [capacity_write]
    exact h.load

/-- A key that is absent, where there is room: no memory is asked for. -/
theorem insertInternal_of_room (hf : m.capacity ≤ fuel) (ha : ∀ i e, m.slot i = some e → e.1 ≠ key)
    (hh : 2 * m.size < m.capacity) : m.insertInternal hash fuel al key val = m.placeNew hash fuel key val := by
  unfold insertInternal
  rw [findIndex_of_absent hf ha]
  show (if m.capacity ≠ m.capacity then _ else if m.size * 2 ≥ m.capacity then _ else _) = _
  rw [if_neg (by simp), if_neg (by omega)]

/-- An entry placed in a table that holds a map without its key. -/
theorem placeNew_spec (val : V) (hh : Holds m.slots M) (hr : Reached (home hash m.capacity) m.slots) (hs : m.size = M.keys.card)
    (hf : m.capacity ≤ fuel) (hk : M.lookup key = none) (hrm : m.size < m.capacity) (hhl : 2 * m.size ≤ m.capacity) :
    ∃ m', m.placeNew hash fuel key val = some (.success, m') ∧ m'.capacity = m.capacity ∧ Sound hash m' (M.insert key val) := by
  have hn : ∃ i < m.capacity, m.slot i = none := exists_empty (by rw [hh.count, ← hs]; exact hrm)
  obtain ⟨p, hp, hsl, hps, heq⟩ := placeNew_eq hash key val hf hn
  have hpl := hh.place (v := val) hp hsl hk
  refine ⟨_, heq, capacity_write .., hpl, ?_, ?_, ?_⟩
  · rw [capacity_write]
    exact hr.place hp hps
  · rw [← hpl.count, occupied_place hp hsl, hh.count, size_write, hs]
  · rw [size_write, capacity_write]
    omega

/-- A value stored for a key: the table holds the map with it, or there was no memory for a larger one. -/
theorem insertInternal_spec (h : Sound hash m M) (hf : 2 * m.capacity ≤ fuel) (key : K) (val : V) (al : Bool) :
    (∃ m', m.insertInternal hash fuel al key val = some (.success, m') ∧ m'.capacity ≤ 2 * m.capacity ∧
      Sound hash m' (M.insert key val)) ∨
    (al = false ∧ m.insertInternal hash fuel al key val = some (.noMemory, m)) := by
  have hpos : 0 < m.capacity := m.hasStorage
  have ht : m.capacity ≤ fuel := by omega
  cases hkey : M.lookup key with
  | some old =>
    obtain ⟨i, hfn, hsl⟩ := h.findIndex_some ht hkey
    have hres : m.insertInternal hash fuel al key val = some (.success, m.assignAt i val) := by
      unfold insertInternal
      rw [hfn]
      show (if i ≠ m.capacity then _ else _) = _
      rw [if_pos (ne_capacity_of_slot hsl)]
      rfl
    exact .inl ⟨_, hres, by rw [assignAt, capacity_write]; omega, h.assignAt hsl⟩
  | none =>
    have ha : ∀ i e, m.slot i = some e → e.1 ≠ key := fun _ _ hsl => h.holds.ne_of_lookup hkey hsl
    by_cases hh : 2 * m.size < m.capacity
    · obtain ⟨m', hp, hc, hs⟩ := placeNew_spec val h.holds h.reached h.size ht hkey (by omega) (by omega)
      exact .inl ⟨m', (insertInternal_of_room ht ha hh).trans hp, by omega, hs⟩
    · have hrs : ∀ r, m.resize hash fuel al (m.capacity * 2) = some r →
          m.insertInternal hash fuel al key val = if r.1 ≠ .success then some r else r.2.placeNew hash fuel key val := by
        intro r hr
        unfold insertInternal
        rw [h.findIndex_none ht hkey]
        show (if m.capacity ≠ m.capacity then _ else if m.size * 2 ≥ m.capacity then _ else _) = _
        rw [if_neg (by simp), if_pos (by omega), hr]
        rfl
      cases al with
      | false =>
        refine .inr ⟨rfl, ?_⟩
        rw [hrs _ (resize_of_no_memory _)]
        rfl
      | true =>
        have hle : m.size ≤ m.capacity := h.size.trans_le h.holds.card_le
        obtain ⟨m1, hre, hc1, hs1, hh1, hr1⟩ := resize_spec hash h.holds h.size hf
        obtain ⟨m', hp, hc, hs⟩ := placeNew_spec val hh1 hr1 (hs1.trans h.size) (show _ ≤ fuel by omega) hkey (by omega) (by omega)
        refine .inl ⟨m', ?_, by omega, hs⟩
        rw [hrs _ hre]
        exact hp

end Insert

end Libft.Template.UnorderedMap
