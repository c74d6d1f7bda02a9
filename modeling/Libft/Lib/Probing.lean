import Mathlib.Data.Finmap
import Mathlib.Data.List.GetD

/-!
# Linear probing

A table of slots that a search goes round, from the home of a key to the first slot that ends it. Positions are on a circle:
`Between a b t` is the part of it from `a` up to `b`. An entry is reached when no slot between its home and its own is empty, so that
a search that stops at an empty slot finds it.
-/

namespace Libft.Probing

open List Option Finmap Nat

/-! ## The circle -/

/-- The positions from `a` on, going round, before `b`. -/
def Between (a b t : ℕ) : Prop := (a ≤ t ∧ t < b) ∨ (b < a ∧ (a ≤ t ∨ t < b))

/-- How far it is from `a` to `b` on a circle of `n`. -/
def gap (n a b : ℕ) : ℕ := if a ≤ b then b - a else b + n - a

variable {n a : ℕ}

/-- The position after `a`. -/
theorem succ_mod (ha : a < n) : (a + 1) % n = if a + 1 = n then 0 else a + 1 := by
  split
  · next h => rw [h, mod_self]
  · exact mod_eq_of_lt (by omega)

/-- A walk that has not come to `b` is not back at its start. -/
theorem succ_mod_ne {b t : ℕ} (ht : t < n) (hb : b < n) (h : Between a b t) : (t + 1) % n ≠ a := by
  rw [succ_mod ht]
  unfold Between at h
  split <;> omega

theorem not_between_self (a t : ℕ) : ¬Between a a t := by
  unfold Between
  omega

/-- The gap of two slots is less than the table. -/
theorem gap_lt {b : ℕ} (ha : a < n) (hb : b < n) : gap n a b < n := by
  unfold gap
  split <;> omega

/-- Among the positions with a property there is a first one from `a`. -/
theorem exists_first (ha : a < n) {P : ℕ → Prop} (h : ∃ j < n, P j) : ∃ p < n, P p ∧ ∀ t < n, Between a p t → ¬P t := by
  obtain ⟨j, hj, hP⟩ := h
  -- on the distance from `a`: a position between with the property is closer
  induction hd : gap n a j using Nat.strong_induction_on generalizing j with
  | _ d ih =>
    by_cases hc : ∃ t < n, Between a j t ∧ P t
    · obtain ⟨t, ht, hb, hPt⟩ := hc
      refine ih (gap n a t) ?_ t ht hPt rfl
      subst hd
      unfold Between at hb
      unfold gap
      split <;> split <;> omega
    · exact ⟨j, hj, hP, fun t ht hb hPt => hc ⟨t, ht, hb, hPt⟩⟩

/-- A search: from a position on, going round, to the first where `here` gives a result. It is out of fuel with `none`. -/
def walk {ρ : Type*} (n : ℕ) (here : ℕ → Option ρ) : ℕ → ℕ → Option ρ
  | 0, _ => none
  | fuel + 1, a =>
    match here a with
    | some r => some r
    | none => walk n here fuel ((a + 1) % n)

/-- A search that has a result at `p` and none before it ends there. -/
theorem walk_eq {ρ : Type*} {p fuel : ℕ} {he : ℕ → Option ρ} {r : ρ} (ha : a < n) (hp : p < n) (hf : n ≤ fuel)
    (hps : ∀ t < n, Between a p t → he t = none) (hs : he p = some r) : walk n he fuel a = some r := by
  have hg : gap n a p < fuel := lt_of_lt_of_le (gap_lt ha hp) hf
  clear hf
  induction fuel generalizing a with
  | zero => omega
  | succ fuel ih =>
    rw [walk]
    by_cases hap : a = p
    · rw [hap, hs]
    · have hh : he a = none := hps a ha (by unfold Between; omega)
      have hnx := succ_mod ha
      rw [hh]
      refine ih (mod_lt _ (by omega)) (fun t ht hb => hps t ht ?_) ?_
      · unfold Between at hb ⊢
        split at hnx <;> omega
      · unfold gap at hg ⊢
        split at hnx <;> split at hg <;> split <;> omega

/-! ## Slots -/

section Slots

variable {K V : Type*}

/-- What a slot holds: an entry, or nothing. -/
def slot (ss : List (Option (K × V))) (i : ℕ) : Option (K × V) := ss.getD i none

variable {ss : List (Option (K × V))} {i j : ℕ} {k : K} {v w : V} {e : K × V} {x : Option (K × V)}

theorem slot_eq (hi : i < ss.length) : slot ss i = ss[i] := getD_eq_getElem _ _ hi

/-- A slot with an entry is in the table. -/
theorem lt_of_slot (h : slot ss i = some e) : i < ss.length := by
  by_contra hge
  rw [slot, getD_eq_default _ _ (by omega)] at h
  exact absurd h (by simp)

/-- Writing a slot changes that slot. -/
theorem slot_set (hi : i < ss.length) : slot (ss.set i x) j = if j = i then x else slot ss j := by
  unfold slot
  rw [getD_eq_getElem?_getD, getD_eq_getElem?_getD, getElem?_set]
  by_cases h : i = j
  · subst h
    simp [hi]
  · rw [if_neg h, if_neg (Ne.symm h)]

theorem slot_set_self (hi : i < ss.length) : slot (ss.set i x) i = x := by
  rw [slot_set hi, if_pos rfl]

theorem slot_set_ne (hi : i < ss.length) (hne : j ≠ i) : slot (ss.set i x) j = slot ss j := by
  rw [slot_set hi, if_neg hne]

/-- The entries after a slot is written. -/
theorem exists_slot_set (hi : i < ss.length) :
    (∃ j, slot (ss.set i x) j = some e) ↔ x = some e ∨ ∃ j, j ≠ i ∧ slot ss j = some e := by
  have ho : ∀ j, slot (ss.set i x) j = some e ↔ j = i ∧ x = some e ∨ j ≠ i ∧ slot ss j = some e := by
    intro j
    rw [slot_set hi]
    split <;> simp [*]
  simp only [ho, exists_or, exists_eq_left]

/-- A fresh table is empty. -/
theorem slot_replicate (n i : ℕ) : slot (replicate n (none : Option (K × V))) i = none := by
  unfold slot
  rw [getD_eq_getElem?_getD, getElem?_replicate]
  split <;> rfl

/-- How many slots are occupied. -/
def occupied (ss : List (Option (K × V))) : ℕ := ss.countP Option.isSome

theorem occupied_le : occupied ss ≤ ss.length := countP_le_length

/-- A table that is not full has an empty slot. -/
theorem exists_empty (h : occupied ss < ss.length) : ∃ i < ss.length, slot ss i = none := by
  obtain ⟨x, hx, hno⟩ := countP_lt_length_iff.mp h
  obtain ⟨i, hi, rfl⟩ := mem_iff_getElem.mp hx
  refine ⟨i, hi, ?_⟩
  rw [slot_eq hi]
  exact isNone_iff_eq_none.mp (by simpa using hno)

/-- An empty slot filled. -/
theorem occupied_place (hi : i < ss.length) (hn : slot ss i = none) : occupied (ss.set i (some e)) = occupied ss + 1 := by
  rw [slot_eq hi] at hn
  rw [occupied, countP_set hi, hn]
  rfl

/-- An empty slot is not counted. -/
theorem occupied_lt (hi : i < ss.length) (hn : slot ss i = none) (e : K × V) : occupied ss < ss.length := by
  have hle := @occupied_le _ _ (ss.set i (some e))
  rw [occupied_place hi hn, length_set] at hle
  omega

/-- An occupied slot emptied. -/
theorem occupied_remove (h : slot ss i = some e) : occupied (ss.set i none) + 1 = occupied ss := by
  have hi := lt_of_slot h
  have hn : slot (ss.set i none) i = none := slot_set_self hi
  have hb := occupied_place (e := e) (by rw [length_set]; exact hi) hn
  rw [← hb, set_set, occupied, occupied]
  congr 1
  rw [slot_eq hi] at h
  rw [← h, set_getElem_self]

end Slots

/-! ## The map a table holds -/

section Holds

variable {K V : Type*} [DecidableEq K]

/-- Each entry of the map is in a slot, each slot with an entry has one of the map, and no key is in two slots. -/
structure Holds (ss : List (Option (K × V))) (M : Finmap fun _ : K => V) : Prop where
  entries (k : K) (v : V) : (∃ i, slot ss i = some (k, v)) ↔ M.lookup k = some v
  distinct {i j : ℕ} {e e' : K × V} : slot ss i = some e → slot ss j = some e' → e.1 = e'.1 → i = j
  count : occupied ss = M.keys.card

variable {ss : List (Option (K × V))} {M : Finmap fun _ : K => V} {i : ℕ} {k : K} {v w : V}

theorem keys_insert (M : Finmap fun _ : K => V) (k : K) (v : V) : (M.insert k v).keys = insert k M.keys := by
  ext a
  rw [Finmap.mem_keys, Finmap.mem_insert, Finset.mem_insert, Finmap.mem_keys]

/-- Inserting a key forgets its old value. -/
theorem insert_erase (M : Finmap fun _ : K => V) (k : K) (v : V) : (M.erase k).insert k v = M.insert k v := by
  refine ext_lookup fun a => ?_
  by_cases h : a = k
  · rw [h, lookup_insert, lookup_insert]
  · rw [lookup_insert_of_ne _ h, lookup_insert_of_ne _ h, lookup_erase_ne h]

theorem notMem_keys (h : M.lookup k = none) : k ∉ M.keys :=
  fun hm => lookup_eq_none.mp h (mem_keys.mp hm)

/-- Inserting what is there changes nothing. -/
theorem insert_lookup (h : M.lookup k = some v) : M.insert k v = M := by
  refine ext_lookup fun a => ?_
  by_cases ha : a = k
  · rw [ha, lookup_insert, h]
  · rw [lookup_insert_of_ne _ ha]

namespace Holds

/-- A fresh table holds the empty map. -/
theorem empty (n : ℕ) : Holds (replicate n (none : Option (K × V))) ∅ where
  entries k v := by simp [slot_replicate]
  distinct h := by simp [slot_replicate] at h
  count := by simp [occupied, countP_replicate]

/-- An entry of the table is one of the map. -/
theorem lookup_of_slot (h : Holds ss M) (hs : slot ss i = some (k, v)) : M.lookup k = some v := (h.entries k v).mp ⟨i, hs⟩

theorem mem_keys (h : Holds ss M) (hs : slot ss i = some (k, v)) : k ∈ M.keys :=
  Finmap.mem_keys.mpr (Finmap.mem_of_lookup_eq_some (h.lookup_of_slot hs))

/-- A key the map does not have is in no slot. -/
theorem ne_of_lookup (h : Holds ss M) (hk : M.lookup k = none) {e : K × V} (hs : slot ss i = some e) : e.1 ≠ k := by
  rintro rfl
  rw [h.lookup_of_slot hs] at hk
  exact absurd hk (by simp)

/-- The map is not larger than the table. -/
theorem card_le (h : Holds ss M) : M.keys.card ≤ ss.length := h.count.symm.trans_le occupied_le

/-- Filling an empty slot inserts a new key. -/
theorem place (h : Holds ss M) (hi : i < ss.length) (hn : slot ss i = none) (hk : M.lookup k = none) :
    Holds (ss.set i (some (k, v))) (M.insert k v) where
  entries a b := by
    have ho : (∃ j, j ≠ i ∧ slot ss j = some (a, b)) ↔ M.lookup a = some b := by
      rw [← h.entries]
      refine exists_congr fun j => and_iff_right_of_imp ?_
      rintro hj rfl
      exact absurd (hj.symm.trans hn) (by simp)
    rw [exists_slot_set hi, ho]
    by_cases ha : a = k
    · subst ha
      rw [lookup_insert, hk]
      simp
    · rw [lookup_insert_of_ne _ ha]
      simp [Ne.symm ha]
  distinct {j j' e e'} hj hj' heq := by
    rw [slot_set hi] at hj hj'
    split at hj <;> split at hj'
    · next h1 h2 => rw [h1, h2]
    · exact absurd (heq.symm.trans (congrArg Prod.fst (some.inj hj)).symm) (h.ne_of_lookup hk hj')
    · exact absurd (heq.trans (congrArg Prod.fst (some.inj hj')).symm) (h.ne_of_lookup hk hj)
    · exact h.distinct hj hj' heq
  count := by
    rw [occupied_place hi hn, keys_insert, Finset.card_insert_of_notMem (notMem_keys hk), h.count]

/-- Emptying a slot erases its key. -/
theorem remove (h : Holds ss M) (hs : slot ss i = some (k, v)) : Holds (ss.set i none) (M.erase k) where
  entries a b := by
    rw [exists_slot_set (lt_of_slot hs), or_iff_right (by simp)]
    by_cases ha : a = k
    · subst ha
      rw [lookup_erase, iff_false_right (by simp)]
      rintro ⟨j, hne, hj⟩
      exact hne (h.distinct hj hs rfl)
    · rw [lookup_erase_ne ha, ← h.entries]
      refine exists_congr fun j => and_iff_right_of_imp ?_
      rintro hj rfl
      exact ha (congrArg Prod.fst (some.inj (hj.symm.trans hs)))
  distinct {j j' e e'} hj hj' heq := by
    have hi := lt_of_slot hs
    rw [slot_set hi] at hj hj'
    split at hj
    · exact absurd hj (by simp)
    split at hj'
    · exact absurd hj' (by simp)
    · exact h.distinct hj hj' heq
  count := by
    have hc := h.count
    have hr := occupied_remove hs
    rw [keys_erase, Finset.card_erase_of_mem (h.mem_keys hs)]
    omega

/-- Overwriting an entry assigns its key. -/
theorem assign (h : Holds ss M) (hs : slot ss i = some (k, w)) : Holds (ss.set i (some (k, v))) (M.insert k v) := by
  have hi := lt_of_slot hs
  have hp : Holds ((ss.set i none).set i (some (k, v))) ((M.erase k).insert k v) :=
    (h.remove hs).place (by rwa [length_set]) (slot_set_self hi) (lookup_erase k M)
  rwa [set_set, insert_erase] at hp

end Holds

end Holds

/-! ## Entries that a search reaches -/

section Reached

variable {K V : Type*}

/-- No slot between the home of an entry and its own is empty. -/
def Reached (home : K → ℕ) (ss : List (Option (K × V))) : Prop :=
  ∀ i e, slot ss i = some e → ∀ t < ss.length, Between (home e.1) i t → slot ss t ≠ none

variable {home : K → ℕ} {ss : List (Option (K × V))} {i : ℕ} {e : K × V}

/-- In a fresh table every entry is reached. -/
theorem Reached.empty (home : K → ℕ) (n : ℕ) : Reached home (replicate n (none : Option (K × V))) := by
  intro i e h
  rw [slot_replicate] at h
  exact absurd h (by simp)

theorem slot_set_some_ne_none {t : ℕ} (hi : i < ss.length) (h : slot ss t ≠ none) : slot (ss.set i (some e)) t ≠ none := by
  rw [slot_set hi]
  split
  · simp
  · exact h

/-- An entry goes to the first empty slot from its home. -/
theorem Reached.place (h : Reached home ss) (hi : i < ss.length)
    (hf : ∀ t < ss.length, Between (home e.1) i t → slot ss t ≠ none) : Reached home (ss.set i (some e)) := by
  intro j x hj t ht hb
  rw [length_set] at ht
  refine slot_set_some_ne_none hi ?_
  rw [slot_set hi] at hj
  split at hj
  · next hji =>
    obtain rfl := some.inj hj
    exact hf t ht (hji ▸ hb)
  · exact h j x hj t ht hb

/-- An entry with another value under the same key. -/
theorem Reached.assign {k : K} {v w : V} (h : Reached home ss) (hs : slot ss i = some (k, w)) :
    Reached home (ss.set i (some (k, v))) :=
  h.place (lt_of_slot hs) (h i (k, w) hs)

/-! ### Closing a hole

Slot `i` of a table whose entries were all reached is emptied, and the entries after it, up to the next empty slot `z`, are taken out
and placed again one by one. Those before the position `w` of the walk are reached again; from there on nothing has changed. -/

/-- The table during the walk, against the one before slot `i` was emptied. -/
structure Repairing (home : K → ℕ) (before ss : List (Option (K × V))) (i w : ℕ) : Prop where
  length : ss.length = before.length
  untouched : ∀ t < before.length, ¬Between i w t → slot ss t = slot before t
  reached : ∀ t < before.length, Between i w t → ∀ x, slot ss t = some x →
    ∀ u < before.length, Between (home x.1) t u → slot ss u ≠ none

variable {before : List (Option (K × V))} {w z : ℕ}

/-- `z` is the first empty slot after `i`. -/
structure EndsAt (ss : List (Option (K × V))) (i z : ℕ) : Prop where
  lt : z < ss.length
  empty : slot ss z = none
  run : ∀ t < ss.length, Between i z t → slot ss t ≠ none

/-- A walk over a table with nothing to repair. -/
theorem Repairing.refl (home : K → ℕ) (ss : List (Option (K × V))) (i : ℕ) : Repairing home ss ss i i where
  length := rfl
  untouched _ _ _ := rfl
  reached t _ hb := absurd hb (not_between_self i t)

/-- The repair starts behind the slot that was emptied. -/
theorem Repairing.start (hi : i < before.length) (ho : 1 < before.length) :
    Repairing home before (before.set i none) i ((i + 1) % before.length) where
  length := length_set
  untouched t ht hnot := by
    refine slot_set_ne hi ?_
    rintro rfl
    rw [succ_mod hi] at hnot
    unfold Between at hnot
    split at hnot <;> omega
  reached t ht hbetween x hx := by
    -- only the emptied slot is between
    have hti : t = i := by
      rw [succ_mod hi] at hbetween
      unfold Between at hbetween
      split at hbetween <;> omega
    rw [hti, slot_set_self hi] at hx
    exact absurd hx (by simp)

/-- An entry taken out of the walk's position goes back to it or fills a hole behind it. -/
theorem Repairing.hole (h : Repairing home before ss i w) (hbf : Reached home before)
    (hw : w < before.length) (hs : slot ss w = some e) {p : ℕ} (hp : p < before.length)
    (hn : slot (ss.set w none) p = none)
    (hf : ∀ t < before.length, Between (home e.1) p t → slot (ss.set w none) t ≠ none) : p = w ∨ Between i w p := by
  by_contra hnt
  rw [not_or] at hnt
  have hwl : w < ss.length := lt_of_slot hs
  have hsm : slot before p = none := by
    rw [← h.untouched p hp hnt.2, ← slot_set_ne hwl hnt.1]
    exact hn
  have hin : slot before w = some e := (h.untouched w hw (by unfold Between; omega)).symm.trans hs
  -- the emptied position is not passed on the way to `p`, so `p` is passed on the way to it
  have hps : ¬Between (home e.1) p w := fun hb => hf w hw hb (slot_set_self hwl)
  refine hbf w e hin p hp ?_ hsm
  have := hnt.1
  unfold Between at hps ⊢
  omega

/-- A step of the repair moves one entry to where probing finds it. -/
theorem Repairing.step (h : Repairing home before ss i w) (hbf : Reached home before) (hi : i < before.length)
    (hz : EndsAt before i z) (hw : w < before.length) (hs : slot ss w = some e) (hwz : Between i z w) {p : ℕ}
    (hp : p < before.length) (hl : slot (ss.set w none) p = none)
    (hf : ∀ t < before.length, Between (home e.1) p t → slot (ss.set w none) t ≠ none) :
    Repairing home before ((ss.set w none).set p (some e)) i ((w + 1) % before.length) := by
  have hwl : w < ss.length := lt_of_slot hs
  have hpl : p < (ss.set w none).length := by rwa [length_set, h.length]
  have hzlt := hz.lt
  have hnx : ∀ t < before.length, Between i ((w + 1) % before.length) t ↔ t = w ∨ Between i w t := by
    intro t ht
    rw [succ_mod hw]
    unfold Between at hwz ⊢
    split <;> omega
  have hh : p = w ∨ Between i w p := h.hole hbf hw hs hp hl hf
  refine ⟨by rw [length_set, length_set, h.length], fun t ht hn => ?_, fun t ht hb x hx u hu hon => ?_⟩
  · rw [hnx t ht, not_or] at hn
    have htp : t ≠ p := by
      rintro rfl
      exact hh.elim hn.1 hn.2
    rw [slot_set_ne hpl htp, slot_set_ne hwl hn.1]
    exact h.untouched t ht hn.2
  · by_cases htp : t = p
    · subst htp
      rw [slot_set_self hpl] at hx
      obtain rfl := some.inj hx
      exact slot_set_some_ne_none hpl (hf u hu hon)
    · rw [slot_set_ne hpl htp] at hx
      have htw : t ≠ w := by
        rintro rfl
        rw [slot_set_self hwl] at hx
        exact absurd hx (by simp)
      rw [slot_set_ne hwl htw] at hx
      have hbc : Between i w t := ((hnx t ht).mp hb).resolve_left htw
      refine slot_set_some_ne_none hpl ?_
      have huw : u ≠ w := by
        -- an entry behind the walk whose way leads over its position would pass the empty slot too
        rintro rfl
        refine h.reached t ht hbc x hx z hzlt ?_ ?_
        · unfold Between at hbc hon hwz ⊢
          omega
        · rw [h.untouched z hzlt (by unfold Between at hwz ⊢; omega)]
          exact hz.empty
      rw [slot_set_ne hwl huw]
      exact h.reached t ht hbc x hx u hu hon

/-- When the walk comes to the empty slot, every entry is reached. -/
theorem Repairing.finish (h : Repairing home before ss i z) (hb : Reached home before) (hz : EndsAt before i z) :
    Reached home ss := by
  intro t x hx u hu hon
  have ht : t < before.length := by
    have := lt_of_slot hx
    rwa [h.length] at this
  rw [h.length] at hu
  by_cases hbc : Between i z t
  · exact h.reached t ht hbc x hx u hu hon
  · have hin : slot before t = some x := (h.untouched t ht hbc).symm.trans hx
    have hne : t ≠ z := by
      rintro rfl
      exact absurd (hin.symm.trans hz.empty) (by simp)
    have ho : ¬Between i z u := by
      intro huz
      refine hb t x hin z hz.lt ?_ hz.empty
      unfold Between at huz hbc hon ⊢
      omega
    rw [h.untouched u hu ho]
    exact hb t x hin u hu hon

end Reached

end Libft.Probing
