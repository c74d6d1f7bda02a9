import Libft.Lib.Probing

/-!
# The unordered map

`ft_unordered_map`: open addressing with linear probing, doubled when half of the slots are occupied, and closed up again after an
entry is erased. A slot is `none` where `_occupied` is false. Keys are hashed by any function. Every loop that probes is given fuel, a
bound on its turns, and is out of fuel with `none`.
-/

namespace Libft.Template

open Probing Option List

/-- The error codes a call may set. -/
inductive MapError
  | success
  | noMemory
  | internal
  deriving DecidableEq, Repr

/-- A map that is initialised, so that it has storage. -/
structure UnorderedMap (K V : Type) where
  slots : List (Option (K × V))
  size : ℕ
  hasStorage : 0 < slots.length

namespace UnorderedMap

variable {K V : Type}

/-- The storage a map starts with: at least one slot. -/
def prepareEmptyStorage (requestedCapacity : ℕ) : UnorderedMap K V where
  slots := replicate (if requestedCapacity = 0 then 1 else requestedCapacity) none
  size := 0
  hasStorage := by
    rw [length_replicate]
    split <;> omega

def capacity (m : UnorderedMap K V) : ℕ := m.slots.length

/-- `_data` and `_occupied` at an index. -/
def slot (m : UnorderedMap K V) (i : ℕ) : Option (K × V) := Probing.slot m.slots i

def hashKey (hash : K → ℕ) (m : UnorderedMap K V) (key : K) : ℕ := hash key % m.capacity

/-- `slots` after a write, with the size that goes with it. -/
def write (m : UnorderedMap K V) (i : ℕ) (x : Option (K × V)) (size : ℕ) : UnorderedMap K V where
  slots := m.slots.set i x
  size := size
  hasStorage := by
    rw [length_set]
    exact m.hasStorage

/-- The probing of `resize_unlocked`, which has no test for a full table. -/
def findEmpty (fuel : ℕ) (slots : List (Option (K × V))) (start : ℕ) : Option ℕ :=
  walk slots.length (fun i => if (Probing.slot slots i).isSome then none else some i) fuel start

/-- The entries of the old slots, until as many are moved as there were. -/
def rehash (hash : K → ℕ) (fuel oldSize : ℕ) :
    List (Option (K × V)) → ℕ → List (Option (K × V)) → Option (List (Option (K × V)) × ℕ)
  | [], inserted, slots => some (slots, inserted)
  | old :: rest, inserted, slots =>
    if inserted < oldSize then
      match old with
      | none => rehash hash fuel oldSize rest inserted slots
      | some entry => do
        let destination ← findEmpty fuel slots (hash entry.1 % slots.length)
        rehash hash fuel oldSize rest (inserted + 1) (slots.set destination (some entry))
    else some (slots, inserted)

/-- The moving keeps the number of slots. -/
theorem length_rehash {ha : K → ℕ} {fuel oldSize : ℕ} {old ss : List (Option (K × V))} {ins : ℕ}
    {r : List (Option (K × V)) × ℕ} (h : rehash ha fuel oldSize old ins ss = some r) : r.1.length = ss.length := by
  induction old generalizing ins ss with
  | nil =>
    obtain rfl := some.inj h
    rfl
  | cons x tl ih =>
    cases x with
    | none =>
      rw [rehash] at h
      split at h
      · exact ih h
      · obtain rfl := some.inj h
        rfl
    | some ent =>
      rw [rehash] at h
      split at h
      · obtain ⟨d, _, h⟩ := bind_eq_some_iff.mp h
        rw [ih h, length_set]
      · obtain rfl := some.inj h
        rfl

/-- `resize_unlocked`: `allocates` says whether both allocations succeed. -/
def resize (hash : K → ℕ) (fuel : ℕ) (allocates : Bool) (m : UnorderedMap K V) (newCapacity : ℕ) :
    Option (MapError × UnorderedMap K V) :=
  if hzero : newCapacity = 0 then some (.noMemory, m)
  else if !allocates then some (.noMemory, m)
  else
    match h : rehash hash fuel m.size m.slots 0 (replicate newCapacity none) with
    | none => none
    | some r =>
      some (.success, {
        slots := r.1
        size := r.2
        hasStorage := by
          rw [length_rehash h, length_replicate]
          omega })

/-- `destroy_elements_unlocked`, slot by slot while entries remain. -/
def destroyElements : List (Option (K × V)) → ℕ → List (Option (K × V))
  | [], _ => []
  | x :: rest, remaining =>
    if 0 < remaining then none :: destroyElements rest (if x.isSome then remaining - 1 else remaining) else x :: rest

theorem length_destroyElements (ss : List (Option (K × V))) (r : ℕ) : (destroyElements ss r).length = ss.length := by
  induction ss generalizing r with
  | nil => rfl
  | cons x tl ih =>
    rw [destroyElements]
    split
    · rw [length_cons, length_cons, ih]
    · rfl

def clear (m : UnorderedMap K V) : UnorderedMap K V where
  slots := destroyElements m.slots m.size
  size := 0
  hasStorage := by
    rw [length_destroyElements]
    exact m.hasStorage

/-- A value stored under a key that is there, by `insert_internal_unlocked` or through a `mapped_proxy`: the key stays. -/
def assignAt (m : UnorderedMap K V) (index : ℕ) (value : V) : UnorderedMap K V :=
  m.write index ((m.slot index).map fun entry => (entry.1, value)) m.size

/-- A turn of the second loop of `insert_internal_unlocked`: an empty slot, or the way round is complete. -/
def placeTurn (m : UnorderedMap K V) (start current : ℕ) : Option (Option ℕ) :=
  match m.slot current with
  | none => some (some current)
  | some _ => if (current + 1) % m.capacity = start then some none else none

/-- The second loop of `insert_internal_unlocked`, for a key that is absent. -/
def placeNew (hash : K → ℕ) (fuel : ℕ) (m : UnorderedMap K V) (key : K) (value : V) : Option (MapError × UnorderedMap K V) := do
  let start := m.hashKey hash key
  match ← walk m.capacity (m.placeTurn start) fuel start with
  | some current => return (.success, m.write current (some (key, value)) (m.size + 1))
  | none => return (.internal, m)

variable [DecidableEq K]

/-- A turn of `find_index_unlocked`; the capacity stands for no index. -/
def findTurn (m : UnorderedMap K V) (key : K) (start current : ℕ) : Option ℕ :=
  match m.slot current with
  | none => some m.capacity
  | some entry =>
    if entry.1 = key then some current
    else if (current + 1) % m.capacity = start then some m.capacity
    else none

def findIndex (hash : K → ℕ) (fuel : ℕ) (m : UnorderedMap K V) (key : K) : Option ℕ :=
  if m.size = 0 then some m.capacity
  else
    let start := m.hashKey hash key
    walk m.capacity (m.findTurn key start) fuel start

/-- `insert_internal_unlocked`: the table is doubled before a new key makes it more than half full. -/
def insertInternal (hash : K → ℕ) (fuel : ℕ) (allocates : Bool) (m : UnorderedMap K V) (key : K) (value : V) :
    Option (MapError × UnorderedMap K V) := do
  let index ← m.findIndex hash fuel key
  if index ≠ m.capacity then
    return (.success, m.assignAt index value)
  if m.size * 2 ≥ m.capacity then
    let (error, m) ← m.resize hash fuel allocates (m.capacity * 2)
    if error ≠ .success then
      return (error, m)
    m.placeNew hash fuel key value
  else
    m.placeNew hash fuel key value

/-- The walk after an entry is gone: each entry up to the next empty slot is taken out and inserted again. -/
def eraseLoop (hash : K → ℕ) (fuel : ℕ) (allocates : Bool) : ℕ → ℕ → UnorderedMap K V → Option (MapError × UnorderedMap K V)
  | 0, _, _ => none
  | turns + 1, next, m =>
    match m.slot next with
    | none => some (.success, m)
    | some moving => do
      let (error, m) ← (m.write next none (m.size - 1)).insertInternal hash fuel allocates moving.1 moving.2
      if error ≠ .success then return (error, m)
      eraseLoop hash fuel allocates turns ((next + 1) % m.capacity) m

def erase (hash : K → ℕ) (fuel : ℕ) (allocates : Bool) (m : UnorderedMap K V) (key : K) : Option (MapError × UnorderedMap K V) := do
  let index ← m.findIndex hash fuel key
  if index = m.capacity then
    return (.success, m)
  eraseLoop hash fuel allocates fuel ((index + 1) % m.capacity) (m.write index none (m.size - 1))

/-- `find`: the entry the iterator stands at, or none for the end. -/
def find (hash : K → ℕ) (fuel : ℕ) (m : UnorderedMap K V) (key : K) : Option (Option (K × V)) := do
  let index ← m.findIndex hash fuel key
  return if index = m.capacity then none else m.slot index

/-- `operator[]`: the index whose value the proxy points to; a key that is absent gets `MappedType()`. -/
def subscript (hash : K → ℕ) (fuel : ℕ) (allocates : Bool) (default : V) (m : UnorderedMap K V) (key : K) :
    Option (Except MapError ℕ × UnorderedMap K V) := do
  let index ← m.findIndex hash fuel key
  if index ≠ m.capacity then
    return (.ok index, m)
  let (error, m) ← m.insertInternal hash fuel allocates key default
  if error ≠ .success then
    return (.error error, m)
  let index ← m.findIndex hash fuel key
  return (.ok index, m)

/-- A call that changes a map, with whether memory is there if it asks for some. `operator[]` may be assigned to. -/
inductive Call (K V : Type)
  | insert (allocates : Bool) (key : K) (value : V)
  | subscript (allocates : Bool) (key : K) (assigned : Option V)
  | erase (allocates : Bool) (key : K)
  | clear
  deriving DecidableEq, Repr

/-- A call and the error it sets. -/
def perform (hash : K → ℕ) (default : V) (fuel : ℕ) (m : UnorderedMap K V) : Call K V → Option (MapError × UnorderedMap K V)
  | .insert allocates key value => m.insertInternal hash fuel allocates key value
  | .subscript allocates key assigned => do
    match ← m.subscript hash fuel allocates default key with
    | (.error error, m) => return (error, m)
    | (.ok index, m) =>
      match assigned with
      | none => return (.success, m)
      | some value => return (.success, m.assignAt index value)
  | .erase allocates key => m.erase hash fuel allocates key
  | .clear => some (.success, m.clear)

/-- Calls one after another, with the error each sets. -/
def run (hash : K → ℕ) (default : V) (fuel : ℕ) : UnorderedMap K V → List (Call K V) → Option (List MapError × UnorderedMap K V)
  | m, [] => some ([], m)
  | m, call :: rest => do
    let (error, m) ← m.perform hash default fuel call
    let (errors, m) ← run hash default fuel m rest
    return (error :: errors, m)

end UnorderedMap

end Libft.Template
