import Libft.Template.Probes

/-!
# The unordered map is a finite map

Whatever the keys hash to, a sequence of `insert`, `operator[]`, `erase` and `clear` leaves a table that holds what the same
sequence makes of a finite map. Every loop ends: the calls return once the fuel exceeds a bound.
-/

namespace Libft.Template.UnorderedMap

open Probing List Finmap Nat Reached

variable {K V : Type} [DecidableEq K] {hash : K → ℕ} {fuel : ℕ} {m : UnorderedMap K V} {M : Finmap fun _ : K => V} {key : K}
  {val : V} {i : ℕ}

/-! ## Erasing -/

/-- A turn of the walk: the entry is taken out and comes to the first empty slot from its home. -/
theorem eraseLoop_turn (hash : K → ℕ) (al : Bool) (ts : ℕ) (hh : Holds m.slots M) (hsz : m.size = M.keys.card)
    (hhl : 2 * m.size ≤ m.capacity) (hf : m.capacity ≤ fuel) {e : K × V} (hs : m.slot i = some e) :
    ∃ p < m.capacity, ∃ m', m'.slots = (m.slots.set i none).set p (some e) ∧ m'.size = m.size ∧
      Probing.slot (m.slots.set i none) p = none ∧
      (∀ t < m.capacity, Between (home hash m.capacity e.1) p t → Probing.slot (m.slots.set i none) t ≠ none) ∧
      Holds m'.slots M ∧
      eraseLoop hash fuel al (ts + 1) i m = eraseLoop hash fuel al ts ((i + 1) % m.capacity) m' := by
  have hi : i < m.capacity := lt_of_slot hs
  have hin : m.slot i = some (e.1, e.2) := hs
  have hl := hh.lookup_of_slot hin
  have hr := hh.remove hin
  have hpos : 0 < m.size := hsz ▸ Finset.card_pos.mpr ⟨e.1, hh.mem_keys hin⟩
  have hrm : ∃ j < (m.write i none (m.size - 1)).capacity, (m.write i none (m.size - 1)).slot j = none :=
    ⟨i, (capacity_write ..).symm ▸ hi, slot_set_self hi⟩
  have ha : ∀ j x, (m.write i none (m.size - 1)).slot j = some x → x.1 ≠ e.1 := fun _ _ h => hr.ne_of_lookup (lookup_erase e.1 M) h
  have ht : (m.write i none (m.size - 1)).capacity ≤ fuel := (capacity_write ..).trans_le hf
  obtain ⟨p, hp, hn, hps, hpl⟩ := placeNew_eq hash e.1 e.2 ht hrm
  have hb := hr.place (v := e.2) hp hn (lookup_erase e.1 M)
  rw [insert_erase, insert_lookup hl] at hb
  rw [capacity_write] at hp hps
  refine ⟨p, hp, (m.write i none (m.size - 1)).write p (some e) (m.size - 1 + 1), rfl, Nat.sub_add_cancel hpos, hn, hps, hb, ?_⟩
  rw [eraseLoop, hs]
  simp only
  rw [insertInternal_of_room ht ha (by rw [size_write, capacity_write]; omega), hpl]
  show eraseLoop hash fuel al ts ((i + 1) % capacity _) _ = _
  rw [capacity_write, capacity_write]
  rfl

/-- The walk from a position up to the empty slot `z`, over a table that is being repaired. -/
theorem eraseLoop_spec (al : Bool) {before : List (Option (K × V))} {w z ts : ℕ} (hbf : Reached (home hash before.length) before)
    (hi : i < before.length) (hz : EndsAt before i z) (hw : w < before.length) (hwz : Between i z w ∨ w = z)
    (ht : gap before.length w z < ts) (hr : Repairing (home hash before.length) before m.slots i w)
    (hh : Holds m.slots M) (hsz : m.size = M.keys.card) (hhl : 2 * m.size ≤ before.length) (hf : before.length ≤ fuel) :
    ∃ m', eraseLoop hash fuel al ts w m = some (.success, m') ∧ m'.capacity = before.length ∧ Sound hash m' M := by
  induction ts generalizing w m with
  | zero => omega
  | succ ts ih =>
    have hc : m.capacity = before.length := hr.length
    have hzlt := hz.lt
    have hsm : m.slot w = Probing.slot before w := hr.untouched w hw (by unfold Between; omega)
    cases hsl : m.slot w with
    | none =>
      rw [eraseLoop, hsl]
      have heq : w = z := hwz.resolve_left fun hb => hz.run w hw hb (hsm.symm.trans hsl)
      subst heq
      refine ⟨m, rfl, hc, hh, ?_, hsz, by omega⟩
      rw [hc]
      exact hr.finish hbf hz
    | some e =>
      have hb : Between i z w := hwz.resolve_right fun heq => by
        rw [hsm, heq, hz.empty] at hsl
        exact absurd hsl (by simp)
      obtain ⟨p, hp, m', hs, hs', hn, hps, hbc, hl⟩ :=
        eraseLoop_turn hash al ts hh hsz (by omega) (show _ ≤ fuel by omega) hsl
      rw [hc] at hp hps
      have hst := hr.step hbf hi hz hw hsl hb hp hn hps
      rw [← hs] at hst
      rw [hl, hc]
      refine ih (mod_lt _ (by omega)) ?_ ?_ hst hbc (hs'.trans hsz) (hs' ▸ hhl)
      · rw [succ_mod hw]
        unfold Between at hb ⊢
        split <;> omega
      · rw [succ_mod hw]
        unfold Between at hb
        unfold gap at ht ⊢
        split at ht <;> split <;> split <;> omega

/-- A table in which a slot was emptied, when no other was empty. There were two slots at most. -/
theorem eraseLoop_of_full (hash : K → ℕ) (al : Bool) (hh : Holds m.slots M) (hsz : m.size = M.keys.card) (hfl : 2 * m.capacity ≤ fuel)
    (hi : i < m.capacity) (ht : m.capacity ≤ 2) (hn : m.slot i = none) (hf : ∀ j < m.capacity, j ≠ i → m.slot j ≠ none) :
    ∃ m', eraseLoop hash fuel al fuel ((i + 1) % m.capacity) m = some (.success, m') ∧ m'.capacity = m.capacity ∧
      Sound hash m' M := by
  have hnx : (i + 1) % m.capacity < m.capacity := mod_lt _ (by omega)
  obtain ⟨ts, rfl⟩ : ∃ ts, fuel = ts + 1 := ⟨fuel - 1, by omega⟩
  cases hslt : m.slot ((i + 1) % m.capacity) with
  | none =>
    rw [eraseLoop, hslt]
    -- the slot after it is itself
    have ha : ∀ j e, m.slot j ≠ some e := by
      intro j e hj
      have hjl : j < m.capacity := lt_of_slot hj
      have ho : (i + 1) % m.capacity = i := by_contra fun hne => hf _ hnx hne hslt
      rw [succ_mod hi] at ho
      have hji : j = i := by
        split at ho <;> omega
      exact absurd (hji ▸ hj) (by simp [hn])
    have hld : m.size ≤ m.capacity := hsz.trans_le hh.card_le
    exact ⟨m, rfl, rfl, hh, fun j e hj => absurd hj (ha j e), hsz, by omega⟩
  | some e =>
    have hne : (i + 1) % m.capacity ≠ i := by
      intro heq
      rw [heq, hn] at hslt
      exact absurd hslt (by simp)
    have hlt : m.size < m.capacity := by
      rw [hsz, ← hh.count]
      exact occupied_lt hi hn e
    obtain ⟨p, hp, m', hsl, hs', hpl, hps, hb, hl⟩ :=
      eraseLoop_turn hash al ts hh hsz (by omega) (show _ ≤ ts + 1 by omega) hslt
    have hc : m'.slots.length = m.capacity := by
      rw [hsl, length_set, length_set]
      rfl
    -- with both slots empty the entry comes home
    have hr : Reached (home hash m.capacity) m'.slots := by
      rw [hsl]
      refine place (fun j x hj => ?_) (by rw [length_set]; exact hp) (by rw [length_set]; exact hps)
      have hjl := lt_of_slot hj
      rw [length_set] at hjl
      rw [slot_set hnx] at hj
      split at hj
      · exact absurd hj (by simp)
      next hj' =>
      have hji : j = i := by
        change j < m.capacity at hjl
        omega
      exact absurd (hj.symm.trans (hji ▸ hn)) (by simp)
    have hrm : ∃ j < m'.slots.length, Probing.slot m'.slots j = none := exists_empty (by rw [hb.count, ← hsz, hc]; exact hlt)
    have hs : ((i + 1) % m.capacity + 1) % m.capacity < m'.slots.length := by
      rw [hc]
      exact mod_lt _ (by omega)
    obtain ⟨z, hz, hzm, hrun⟩ := exists_first hs hrm
    have hg := gap_lt hs hz
    have hfr : ∀ a : ℕ, Between a z a ∨ a = z := by
      intro a
      unfold Between
      omega
    rw [hl]
    obtain ⟨m'', hl', hc', hsn⟩ := eraseLoop_spec al (hc.symm ▸ hr)
      hs ⟨hz, hzm, hrun⟩ hs (hfr _) (show _ < ts by omega) (Repairing.refl _ _ _) hb (hs'.trans hsz) (by omega)
      (show _ ≤ ts + 1 by omega)
    exact ⟨m'', hl', hc'.trans hc, hsn⟩

/-- A key erased: no memory is needed, whatever has to be moved. -/
theorem erase_spec (h : Sound hash m M) (hfu : 2 * m.capacity ≤ fuel) (key : K) (al : Bool) :
    ∃ m', m.erase hash fuel al key = some (.success, m') ∧ m'.capacity = m.capacity ∧ Sound hash m' (M.erase key) := by
  have hp : 0 < m.capacity := m.hasStorage
  have ht : m.capacity ≤ fuel := by omega
  unfold erase
  cases hkey : M.lookup key with
  | none =>
    rw [h.findIndex_none ht hkey]
    have hsm : M.erase key = M := ext_lookup fun a => by
      by_cases ha : a = key
      · rw [ha, lookup_erase, hkey]
      · rw [lookup_erase_ne ha]
    refine ⟨m, ?_, rfl, by rwa [hsm]⟩
    show (if m.capacity = m.capacity then _ else _) = _
    rw [if_pos rfl]
    rfl
  | some val =>
    obtain ⟨i, hf, hs⟩ := h.findIndex_some ht hkey
    have hi : i < m.capacity := lt_of_slot hs
    have hr := h.holds.remove hs
    have hrs : m.size - 1 = (M.erase key).keys.card := by
      rw [← hr.count, h.size, ← h.holds.count, ← occupied_remove hs]
      rfl
    rw [hf]
    show ∃ m', (if i = m.capacity then _ else eraseLoop hash fuel al fuel ((i + 1) % m.capacity) _) = _ ∧ _
    rw [if_neg (ne_capacity_of_slot hs)]
    by_cases hrm : ∃ j < m.capacity, m.slot j = none
    · obtain ⟨z, hz, hn, hrun⟩ := exists_first hi hrm
      have hzi : z ≠ i := by
        rintro rfl
        exact absurd (hn.symm.trans hs) (by simp)
      have hg := gap_lt (mod_lt (i + 1) hp) hz
      have hl := h.load
      refine eraseLoop_spec al h.reached hi ⟨hz, hn, hrun⟩ (mod_lt (i + 1) hp) ?_ (lt_of_lt_of_le hg ht)
        (Repairing.start hi (show 1 < m.capacity by omega)) hr hrs ?_ ht
      · show Between i z ((i + 1) % m.capacity) ∨ (i + 1) % m.capacity = z
        rw [succ_mod hi]
        unfold Between
        split <;> omega
      · show 2 * (m.size - 1) ≤ m.capacity
        omega
    · have hcnt : m.size = m.capacity := by
        by_contra hne
        refine hrm (exists_empty ?_)
        rw [h.holds.count, ← h.size]
        exact lt_of_le_of_ne (h.size.trans_le h.holds.card_le) hne
      have hl := h.load
      have hc : (m.write i none (m.size - 1)).capacity = m.capacity := capacity_write ..
      have hfl : ∀ j < m.capacity, j ≠ i → (m.write i none (m.size - 1)).slot j ≠ none := by
        intro j hj hne hno
        exact hrm ⟨j, hj, (slot_set_ne hi hne).symm.trans hno⟩
      have hd := eraseLoop_of_full (m := m.write i none (m.size - 1)) hash al hr hrs
        (show _ ≤ fuel by omega) (by omega) (by omega) (slot_set_self hi) (hc.symm ▸ hfl)
      rw [hc] at hd
      exact hd

/-! ## The other operations -/

theorem clear_spec (h : Sound hash m M) : m.clear.capacity = m.capacity ∧ Sound hash m.clear ∅ := by
  have hs : m.clear.slots = replicate m.capacity none := destroyElements_eq (by rw [h.size, ← h.holds.count])
  refine ⟨by rw [capacity, hs, length_replicate], ?_, ?_, rfl, zero_le _⟩
  · rw [hs]
    exact Holds.empty _
  · rw [hs]
    exact empty _ _

/-- What `operator[]` makes of a map before anything is assigned. -/
def withDefault (default : V) (key : K) (M : Finmap fun _ : K => V) : Finmap fun _ : K => V :=
  if (M.lookup key).isSome then M else M.insert key default

theorem subscript_spec (h : Sound hash m M) (hfl : 4 * m.capacity ≤ fuel) (default : V) (key : K) (al : Bool) :
    (∃ i m' v, m.subscript hash fuel al default key = some (.ok i, m') ∧ m'.capacity ≤ 2 * m.capacity ∧
      Sound hash m' (withDefault default key M) ∧ m'.slot i = some (key, v)) ∨
    (al = false ∧ m.subscript hash fuel al default key = some (.error .noMemory, m)) := by
  have ht : m.capacity ≤ fuel := by omega
  unfold subscript withDefault
  cases hkey : M.lookup key with
  | some val =>
    obtain ⟨i, hf, hsl⟩ := h.findIndex_some ht hkey
    refine .inl ⟨i, m, val, ?_, by omega, h, hsl⟩
    rw [hf]
    show (if i ≠ m.capacity then _ else _) = _
    rw [if_pos (ne_capacity_of_slot hsl)]
    rfl
  | none =>
    rw [h.findIndex_none ht hkey]
    rcases insertInternal_spec h (show 2 * m.capacity ≤ fuel by omega) key default al with
      ⟨m', hins, hcap, hs⟩ | ⟨hmem, hins⟩
    · obtain ⟨i, hf, hsl⟩ := hs.findIndex_some (show _ ≤ fuel by omega) (lookup_insert M)
      refine .inl ⟨i, m', default, ?_, hcap, hs, hsl⟩
      show (if m.capacity ≠ m.capacity then _ else _) = _
      rw [if_neg (by simp), hins]
      show (m'.findIndex hash fuel key).bind (fun j => some (Except.ok j, m')) = _
      rw [hf]
      rfl
    · refine .inr ⟨hmem, ?_⟩
      show (if m.capacity ≠ m.capacity then _ else _) = _
      rw [if_neg (by simp), hins]
      rfl

/-! ## Runs -/

/-- Whether memory is there if the call asks for some. -/
def Call.allocates : Call K V → Bool
  | .insert allocates _ _ => allocates
  | .subscript allocates _ _ => allocates
  | .erase allocates _ => allocates
  | .clear => true

/-- The same call on a finite map. -/
def Call.apply (default : V) (M : Finmap fun _ : K => V) : Call K V → Finmap fun _ : K => V
  | .insert _ key val => M.insert key val
  | .subscript _ key none => withDefault default key M
  | .subscript _ key (some val) => (withDefault default key M).insert key val
  | .erase _ key => M.erase key
  | .clear => ∅

/-- The calls that succeeded, on a finite map. -/
def applyAll (default : V) (M : Finmap fun _ : K => V) (calls : List (Call K V × MapError)) : Finmap fun _ : K => V :=
  calls.foldl (fun M c => if c.2 = .success then c.1.apply default M else M) M

theorem perform_spec (h : Sound hash m M) (hf : 4 * m.capacity ≤ fuel) (default : V) (call : Call K V) :
    ∃ err m', m.perform hash default fuel call = some (err, m') ∧ m'.capacity ≤ 2 * m.capacity ∧
      ((err = .success ∧ Sound hash m' (call.apply default M)) ∨ (err = .noMemory ∧ call.allocates = false ∧ m' = m)) := by
  cases call with
  | insert al key val =>
    rcases insertInternal_spec h (show 2 * m.capacity ≤ fuel by omega) key val al with
      ⟨m', hins, hc, hs⟩ | ⟨hm, hins⟩
    · exact ⟨_, m', hins, hc, .inl ⟨rfl, hs⟩⟩
    · exact ⟨_, m, hins, by omega, .inr ⟨rfl, hm, rfl⟩⟩
  | subscript al key assigned =>
    rcases subscript_spec h hf default key al with ⟨i, m', v, hb, hc, hs, hsl⟩ | ⟨hm, hb⟩
    · rw [perform, hb]
      cases assigned with
      | none => exact ⟨_, m', rfl, hc, .inl ⟨rfl, hs⟩⟩
      | some val =>
        exact ⟨_, m'.assignAt i val, rfl, (capacity_write ..).trans_le hc, .inl ⟨rfl, hs.assignAt hsl⟩⟩
    · rw [perform, hb]
      exact ⟨_, m, rfl, by omega, .inr ⟨rfl, hm, rfl⟩⟩
  | erase al key =>
    obtain ⟨m', he, hc, hs⟩ := erase_spec h (show 2 * m.capacity ≤ fuel by omega) key al
    exact ⟨_, m', he, by omega, .inl ⟨rfl, hs⟩⟩
  | clear =>
    obtain ⟨hc, hs⟩ := clear_spec h
    exact ⟨_, m.clear, rfl, by omega, .inl ⟨rfl, hs⟩⟩

/-- A run of calls: each returns, and fails only for want of memory. -/
theorem run_spec (default : V) (cs : List (Call K V)) (h : Sound hash m M) (hfl : 2 ^ cs.length * (4 * m.capacity) ≤ fuel) :
    ∃ errors m', m.run hash default fuel cs = some (errors, m') ∧ errors.length = cs.length ∧ m'.capacity ≤ fuel ∧
      (∀ c ∈ cs.zip errors, c.2 ≠ .success → c.2 = .noMemory ∧ c.1.allocates = false) ∧
      Sound hash m' (applyAll default M (cs.zip errors)) := by
  induction cs generalizing m M with
  | nil =>
    have hpos : 0 < m.capacity := m.hasStorage
    rw [length_nil, pow_zero, one_mul] at hfl
    exact ⟨[], m, rfl, rfl, by omega, fun c hc => absurd hc not_mem_nil, h⟩
  | cons call tl ih =>
    rw [length_cons, pow_succ, mul_assoc] at hfl
    have ht : 4 * m.capacity ≤ fuel := by
      refine le_trans ?_ hfl
      refine le_trans ?_ (Nat.le_mul_of_pos_left _ (Nat.two_pow_pos tl.length))
      omega
    obtain ⟨err, m1, hp, hcap, hcs⟩ := perform_spec h ht default call
    have hr : 2 ^ tl.length * (4 * m1.capacity) ≤ fuel := by
      refine le_trans (mul_le_mul_left _ ?_) hfl
      omega
    have hM1 : Sound hash m1 (if err = .success then call.apply default M else M) := by
      rcases hcs with ⟨rfl, hs⟩ | ⟨rfl, _, rfl⟩
      · exact hs
      · exact h
    obtain ⟨errors, m', hn, hl, hc', hf, hs⟩ := ih hM1 hr
    refine ⟨err :: errors, m', ?_, by rw [length_cons, length_cons, hl], hc', ?_, hs⟩
    · rw [run, hp]
      show (m1.run hash default fuel tl).bind (fun r => some (err :: r.1, r.2)) = _
      rw [hn]
      rfl
    · intro c hc hne
      rw [zip_cons_cons, mem_cons] at hc
      rcases hc with rfl | hc
      · rcases hcs with ⟨he, _⟩ | ⟨he, hm, _⟩
        · exact absurd he hne
        · exact ⟨he, hm⟩
      · exact hf c hc hne

/-- What a table shows of a finite map. -/
structure Represents (hash : K → ℕ) (fuel : ℕ) (m : UnorderedMap K V) (M : Finmap fun _ : K => V) : Prop where
  /-- A search returns, with the value the map has for the key or with none. -/
  find (key : K) : m.find hash fuel key = some ((M.lookup key).map fun val => (key, val))
  size : m.size = M.keys.card
  /-- The occupied slots are the entries of the map. -/
  entries (key : K) (val : V) : (∃ i, m.slot i = some (key, val)) ↔ M.lookup key = some val
  /-- No key is in two slots. -/
  distinct (i j : ℕ) (e e' : K × V) : m.slot i = some e → m.slot j = some e' → e.1 = e'.1 → i = j

theorem Sound.represents (h : Sound hash m M) (hf : m.capacity ≤ fuel) : Represents hash fuel m M where
  find key := by
    unfold find
    cases hkey : M.lookup key with
    | none =>
      rw [h.findIndex_none hf hkey]
      show some (if m.capacity = m.capacity then none else m.slot m.capacity) = _
      rw [if_pos rfl]
      rfl
    | some val =>
      obtain ⟨i, hfn, hs⟩ := h.findIndex_some hf hkey
      rw [hfn]
      show some (if i = m.capacity then none else m.slot i) = _
      rw [if_neg (ne_capacity_of_slot hs), hs]
      rfl
  size := h.size
  entries := h.holds.entries
  distinct _ _ _ _ := h.holds.distinct

theorem sound_prepareEmptyStorage (hash : K → ℕ) (rc : ℕ) : Sound hash (prepareEmptyStorage rc : UnorderedMap K V) ∅ where
  holds := Holds.empty _
  reached := empty _ _
  size := rfl
  load := zero_le _

/-- For any hash function and any calls on a new map there is a number of turns within which every loop ends. The calls fail only
where memory is missing, and the table left represents the finite map that the successful calls make. -/
theorem run_represents (hash : K → ℕ) (default : V) (requestedCapacity : ℕ) (calls : List (Call K V)) :
    ∃ bound, ∀ fuel ≥ bound, ∃ errors m,
      (prepareEmptyStorage requestedCapacity).run hash default fuel calls = some (errors, m) ∧ errors.length = calls.length ∧
      (∀ c ∈ calls.zip errors, c.2 ≠ .success → c.2 = .noMemory ∧ c.1.allocates = false) ∧
      Represents hash fuel m (applyAll default ∅ (calls.zip errors)) := by
  refine ⟨2 ^ calls.length * (4 * (prepareEmptyStorage requestedCapacity : UnorderedMap K V).capacity), fun fuel hfl => ?_⟩
  obtain ⟨errors, m, hr, hl, hc, hf, hs⟩ := run_spec default calls (sound_prepareEmptyStorage hash requestedCapacity) hfl
  exact ⟨errors, m, hr, hl, hf, hs.represents hc⟩

end Libft.Template.UnorderedMap
