import Mathlib.Data.List.Nodup
import Libft.Template.UnorderedMap

/-!
# The ordered map

`ft_map`: an array of entries in the order their keys were first inserted, searched from the front. A removal shifts the later entries
down. Every insertion of a new key asks for twice the capacity, also where the array has room. Keys and values are copied without an error.
-/

namespace Libft.Template

structure FtMap (K V : Type) where
  data : List (K × V)
  capacity : ℕ

namespace FtMap

open List Function Prod

variable {K V : Type} [DecidableEq K] {m : FtMap K V} {initialCapacity : ℕ}

def findIndex (data : List (K × V)) (key : K) : ℕ := data.findIdx fun entry => entry.1 == key

/-- `find`, as the value pointed at; `none` is the end pointer. -/
def find (m : FtMap K V) (key : K) : Option V := m.data[findIndex m.data key]?.map snd

/-- The capacity an insertion asks for; `none` is the return where `ft_size_t` has no larger one. -/
def nextCapacity (capacity : ℕ) : Option ℕ :=
  if capacity = 0 then some 1
  else if capacity * 2 % 2 ^ 64 ≤ capacity then
    if (capacity + 1) % 2 ^ 64 = 0 then none else some ((capacity + 1) % 2 ^ 64)
  else some (capacity * 2 % 2 ^ 64)

def ensureCapacity (allocates : Bool) (m : FtMap K V) (desired : ℕ) : Option (FtMap K V) :=
  if desired ≤ m.capacity then some m
  else if allocates then some { m with capacity := desired }
  else none

/-- `insert`, with the error it sets; without a next capacity it returns and sets none. -/
def insert (allocates : Bool) (m : FtMap K V) (key : K) (value : V) : FtMap K V × Option MapError :=
  if findIndex m.data key ≠ m.data.length then
    ({ m with data := m.data.modify (findIndex m.data key) fun entry => (entry.1, value) }, some .success)
  else
    match nextCapacity m.capacity with
    | none => (m, none)
    | some next =>
      match m.ensureCapacity allocates next with
      | none => (m, some .noMemory)
      | some m => ({ m with data := m.data ++ [(key, value)] }, some .success)

/-- The loop of `remove`: from the index on, each entry is overwritten by the next. -/
def shiftDown : ℕ → List (K × V) → List (K × V)
  | 0, _ :: entry :: rest => entry :: shiftDown 0 (entry :: rest)
  | 0, data => data
  | _ + 1, [] => []
  | index + 1, entry :: rest => entry :: shiftDown index rest

def remove (m : FtMap K V) (key : K) : FtMap K V :=
  if findIndex m.data key = m.data.length then m
  else { m with data := (shiftDown (findIndex m.data key) m.data).dropLast }

def clear (m : FtMap K V) : FtMap K V := { m with data := [] }

/-- The calls on a map, each insertion with whether memory is given to it. -/
inductive Call (K V : Type)
  | insert (allocates : Bool) (key : K) (value : V)
  | remove (key : K)
  | clear

/-- A map with what it should hold, the entries added to it and the most it has held. -/
structure Run (K V : Type) where
  map : FtMap K V
  stored : K → Option V
  added : ℕ
  peak : ℕ

def step (r : Run K V) : Call K V → Run K V
  | .insert allocates key value =>
    let result := r.map.insert allocates key value
    { map := result.1
      stored := if result.2 = some .noMemory then r.stored else update r.stored key (some value)
      added := if r.map.data.length < result.1.data.length then r.added + 1 else r.added
      peak := max r.peak result.1.data.length }
  | .remove key => { r with map := r.map.remove key, stored := update r.stored key none }
  | .clear => { r with map := r.map.clear, stored := fun _ => none }

def run (initialCapacity : ℕ) (calls : List (Call K V)) : Run K V :=
  calls.foldl step ⟨⟨[], initialCapacity⟩, fun _ => none, 0, 0⟩

/-- The capacity after a new key. -/
def grow (capacity : ℕ) : ℕ := max capacity ((nextCapacity capacity).getD 0)

/-! ## The entries of the array -/

/-- A search ends behind the array, or at the first entry of its key. -/
theorem findIndex_cases (data : List (K × V)) (key : K) :
    findIndex data key = data.length ∧ key ∉ data.map fst ∨
      ∃ before v after, data = before ++ (key, v) :: after ∧ findIndex data key = before.length ∧
        key ∉ before.map fst := by
  unfold findIndex
  induction data with
  | nil => simp
  | cons e tl ih =>
    by_cases h : e.1 = key
    · exact .inr ⟨[], e.2, tl, by simp [← h], by simp [findIdx_cons, h], by simp⟩
    · have hne : ¬(e.1 == key) := by simpa using h
      rcases ih with ⟨hi, hn⟩ | ⟨before, v, after, rfl, hi, hn⟩
      · exact .inl ⟨by simp [findIdx_cons, hne, hi], by simp [Ne.symm h, hn]⟩
      · refine .inr ⟨e :: before, v, after, rfl, ?_, by simp [Ne.symm h, hn]⟩
        simp [findIdx_cons, hne, hi]

omit [DecidableEq K] in
/-- Behind the shifted entries the last one stays, until it is destroyed. -/
theorem shiftDown_append (before after : List (K × V)) (entry : K × V) :
    ∃ last, shiftDown before.length (before ++ entry :: after) = before ++ after ++ [last] := by
  induction before with
  | nil =>
    induction after generalizing entry with
    | nil => exact ⟨entry, rfl⟩
    | cons next rest ih =>
      obtain ⟨last, hl⟩ := ih next
      exact ⟨last, congrArg (next :: ·) hl⟩
  | cons e before ih =>
    obtain ⟨last, hl⟩ := ih
    exact ⟨last, congrArg (e :: ·) hl⟩

omit [DecidableEq K] in
theorem ensureCapacity_eq {al : Bool} {grown : FtMap K V} {next : ℕ} (h : m.ensureCapacity al next = some grown) :
    grown = { m with capacity := max m.capacity next } := by
  unfold ensureCapacity at h
  split_ifs at h with hle <;> obtain rfl := Option.some.inj h
  · rw [max_eq_left hle]
  · rw [max_eq_right (Nat.le_of_not_le hle)]

/-- The first entry of a key is its only one. -/
theorem find_eq_some_iff (h : (m.data.map fst).Nodup) (key : K) (v : V) : m.find key = some v ↔ (key, v) ∈ m.data := by
  unfold find
  rcases findIndex_cases m.data key with ⟨hi, hn⟩ | ⟨before, old, after, hd, hi, hn⟩
  · simpa [hi] using fun hm => hn (mem_map_of_mem hm)
  · rw [hd] at h
    rw [hi, hd]
    grind

/-! ## Runs of calls -/

/-- The keys differ, the capacity is grown once for each entry added, and the map holds what was stored, unless an insertion has found no
next capacity. -/
structure Holds (initialCapacity : ℕ) (r : Run K V) : Prop where
  nodup : (r.map.data.map fst).Nodup
  capacity : r.map.capacity = grow^[r.added] initialCapacity
  entries : r.map.capacity + 1 < 2 ^ 64 → ∀ k v, (k, v) ∈ r.map.data ↔ r.stored k = some v

variable {r : Run K V}

theorem Holds.insert (h : Holds initialCapacity r) (al : Bool) (key : K) (val : V) :
    Holds initialCapacity (step r (.insert al key val)) := by
  obtain ⟨hnd, hc, he⟩ := h
  rcases findIndex_cases r.map.data key with ⟨hi, hn⟩ | ⟨before, old, after, hd, hi, hn⟩
  · simp only [step, FtMap.insert, if_neg (not_not_intro hi)]
    cases hnx : nextCapacity r.map.capacity with
    | none =>
      have hf : 2 ^ 64 ≤ r.map.capacity + 1 := by grind [nextCapacity]
      exact ⟨hnd, by simpa using hc, fun hr => absurd hr (Nat.not_lt.mpr hf)⟩
    | some next =>
      cases hg : r.map.ensureCapacity al next with
      | none => simpa [hg] using ⟨hnd, hc, he⟩
      | some grown =>
        obtain rfl := ensureCapacity_eq hg
        simp only [hg]
        refine ⟨by grind, by simp [iterate_succ_apply', ← hc, grow, hnx], fun hr k v => ?_⟩
        have hkv := he (by grind) k v
        grind [update_apply]
  · -- the entry of the key is overwritten
    have hs : r.map.insert al key val = ({ r.map with data := before ++ (key, val) :: after }, some .success) := by
      rw [FtMap.insert, if_pos (by rw [hi, hd]; simp), hi, hd, modify_eq_take_cons_drop (by simp)]
      simp
    rw [hd] at hnd he
    simp only [step, hs]
    refine ⟨by simpa using hnd, by simpa [hd] using hc, fun hr k v => ?_⟩
    have hkv := he hr k v
    grind [update_apply]

theorem Holds.remove (h : Holds initialCapacity r) (key : K) : Holds initialCapacity (step r (.remove key)) := by
  obtain ⟨hnd, hc, he⟩ := h
  simp only [step, FtMap.remove]
  rcases findIndex_cases r.map.data key with ⟨hi, hn⟩ | ⟨before, val, after, hd, hi, -⟩
  · rw [if_pos hi]
    refine ⟨hnd, hc, fun hr k v => ?_⟩
    have hkv := he hr k v
    grind [update_apply]
  · obtain ⟨last, hl⟩ := shiftDown_append before after (key, val)
    have hf : findIndex r.map.data key ≠ r.map.data.length := by rw [hi, hd]; simp
    rw [if_neg hf, hi, hd, hl, dropLast_concat]
    rw [hd] at hnd he
    refine ⟨by grind, hc, fun hr k v => ?_⟩
    have hkv := he hr k v
    grind [update_apply]

theorem holds_run (initialCapacity : ℕ) (cs : List (Call K V)) : Holds initialCapacity (run initialCapacity cs) := by
  induction cs using reverseRecOn with
  | nil => exact ⟨.nil, rfl, by simp [run]⟩
  | append_singleton cs call ih =>
    rw [run, foldl_concat, ← run]
    cases call with
    | insert al key v => exact ih.insert al key v
    | remove key => exact ih.remove key
    | clear => exact ⟨.nil, ih.capacity, by simp [step, FtMap.clear]⟩

theorem grow_iterate (h : 0 < initialCapacity) (n : ℕ) (hn : initialCapacity * 2 ^ n < 2 ^ 64) :
    grow^[n] initialCapacity = initialCapacity * 2 ^ n := by
  induction n with
  | zero => simp
  | succ n ih =>
    rw [pow_succ, ← mul_assoc] at hn ⊢
    rw [iterate_succ_apply', ih (by omega)]
    have hp : 0 < initialCapacity * 2 ^ n := Nat.mul_pos h (Nat.two_pow_pos n)
    simp only [grow, nextCapacity, Nat.mod_eq_of_lt hn]
    grind

/-- After every sequence of calls the keys differ and a search finds what was stored last, as long as `ft_size_t` has a next capacity. The
capacity is doubled by every entry ever added, so that it keeps to a bound exactly where that power does. -/
theorem run_capacity_iff (initialCapacity : ℕ) (calls : List (Call K V)) (multiple : ℕ) :
    let r := run initialCapacity calls
    (r.map.data.map fst).Nodup ∧
    (r.map.capacity + 1 < 2 ^ 64 → r.map.find = r.stored) ∧
    (r.map.capacity ≤ max initialCapacity (multiple * r.peak) ↔
      grow^[r.added] initialCapacity ≤ max initialCapacity (multiple * r.peak)) ∧
    (0 < initialCapacity → initialCapacity * 2 ^ r.added < 2 ^ 64 → r.map.capacity = initialCapacity * 2 ^ r.added) := by
  intro r
  have h : Holds initialCapacity r := holds_run initialCapacity calls
  refine ⟨h.nodup, fun hr => funext fun k => ?_, by rw [h.capacity], fun hp hn => ?_⟩
  · exact Option.ext fun v => (find_eq_some_iff h.nodup k v).trans (h.entries hr k v)
  · rw [h.capacity, grow_iterate hp _ hn]

/-- One entry, inserted and removed 21 times. -/
theorem run_grows :
    let r := run 10 (replicate 21 [Call.insert true 0 0, Call.remove 0]).flatten
    r.peak = 1 ∧ max 10 (2 ^ 20 * r.peak) < r.map.capacity ∧ r.map.data = ([] : List (ℕ × ℕ)) := by
  decide +kernel

end FtMap

end Libft.Template
