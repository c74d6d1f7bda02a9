import Libft.Buffer.Varints
import Mathlib.Data.Int.ModEq
import Mathlib.Tactic.Linarith

/-!
# Byte buffers

`ft_byte_buffer` (`buffer_byte_buffer.cpp`): typed appends and typed reads over one growing block of bytes. Whether an allocation succeeds
is an input. The mutex is left out, pointers that the caller passes are not null, and `_data` is null exactly while the capacity is 0.

The main result is the round trip of a whole buffer: the typed reads that go with a run of typed appends give back what was appended and
use up every byte. It rests on one round trip for each kind of item, and the two kinds of variable length rest on what their encoders
write, the groups of the number.
-/

namespace Libft.Buffer

open Bytes

/-! ## Variable lengths -/

/-- `buffer_encode_varuint64`, with the room that is left in the output. Without a result the code is `FT_ERR_OUT_OF_RANGE`. -/
def encodeVaruint64 : ℕ → ℕ → Option Bytes
  | 0, _ => none
  | room + 1, value =>
    if 0x80 ≤ value then (encodeVaruint64 room (value >>> 7)).map (((value &&& 0x7F) ||| 0x80).toUInt8 :: ·)
    else some [(value &&& 0x7F).toUInt8]

/-- `buffer_encode_varint64`. The shift of a negative number is arithmetic, so it ends at -1. -/
def encodeVarint64 : ℕ → ℤ → Option Bytes
  | 0, _ => none
  | room + 1, value =>
    let byte := (value % 0x80).toNat
    let value := value >>> (7 : ℕ)
    if value = 0 ∧ byte &&& 0x40 = 0 ∨ value = -1 ∧ byte &&& 0x40 ≠ 0 then some [byte.toUInt8]
    else (encodeVarint64 room value).map ((byte ||| 0x80).toUInt8 :: ·)

/-- What `buffer_decode_varint64` does at the last byte: a set sign bit fills the bits above the groups. -/
def extend (value shift : ℕ) (byte : UInt8) : ℕ :=
  if shift < 64 ∧ byte.toNat &&& 0x40 ≠ 0 then value ||| ((2 ^ 64 - 1) <<< shift) % 2 ^ 64 else value

/-- The loop of `buffer_decode_varint64`. -/
def decodeSignedLoop : ℕ → ℕ → Bytes → Option (ℕ × ℕ)
  | _, _, [] => none
  | value, shift, byte :: rest =>
    if 64 ≤ shift then none
    else
      let value := value ||| ((byte.toNat &&& 0x7F) <<< shift) % 2 ^ 64
      if continues byte then (decodeSignedLoop value (shift + 7) rest).map fun (value, index) => (value, index + 1)
      else some (extend value (shift + 7) byte, 1)

/-- `buffer_decode_varint64` -/
def decodeVarint64 (buffer : Bytes) : Option (Int64 × ℕ) := (decodeSignedLoop 0 0 buffer).map fun (value, index) => (.ofNat value, index)

/-- The bytes of a group: the last one, and one with others behind it. -/
theorem group_bytes : ∀ n < 0x80, (¬continues n.toUInt8 ∧ n.toUInt8.toNat = n) ∧
    continues (n ||| 0x80).toUInt8 ∧ (n ||| 0x80).toUInt8.toNat % 0x80 = n := by
  decide

/-- The encoder of unsigned numbers writes the groups of the number. -/
theorem encodeVaruint64_spec {room v : ℕ} (hv : v < 0x80 ^ (room + 1)) :
    ∃ front byte, encodeVaruint64 (room + 1) v = some (front ++ [byte]) ∧ Ends front byte ∧ front.length ≤ room ∧
      groups (front ++ [byte]) = v := by
  have hlow := group_bytes (v % 0x80) (Nat.mod_lt _ (by decide))
  rw [encodeVaruint64, and_0x7F, Nat.shiftRight_eq_div_pow]
  split
  · cases room with
    | zero => omega
    | succ room =>
      have hhigh : v / 2 ^ 7 < 0x80 ^ (room + 1) := by
        rw [Nat.pow_succ] at hv
        omega
      obtain ⟨front, byte, he, hends, hl, hg⟩ := encodeVaruint64_spec hhigh
      refine ⟨_ :: front, byte, by rw [he]; rfl, hends.cons hlow.2.1, by simpa, ?_⟩
      rw [List.cons_append, groups, hlow.2.2, hg]
      omega
  · refine ⟨[], _, rfl, .nil hlow.1.1, by simp, ?_⟩
    rw [List.nil_append, groups, hlow.1.2, groups]
    omega

/-- The encoder of signed numbers writes the groups of the number, which a sign bit in the last one lifts above zero. -/
theorem encodeVarint64_spec {room : ℕ} {v : ℤ} (hv : -64 * 0x80 ^ room ≤ v ∧ v < 64 * 0x80 ^ room) :
    ∃ front byte, encodeVarint64 (room + 1) v = some (front ++ [byte]) ∧ Ends front byte ∧ front.length ≤ room ∧
      (groups (front ++ [byte]) : ℤ) = v + if byte.toNat &&& 0x40 ≠ 0 then 2 ^ (7 * (front.length + 1)) else 0 := by
  have hlt : (v % 0x80).toNat < 0x80 := by omega
  have hlow := group_bytes _ hlt
  have hsign := (show ∀ n < 0x80, n &&& 0x40 = 0 ↔ n < 0x40 by decide) _ hlt
  have hshift : v >>> (7 : ℕ) = v / 0x80 := Int.shiftRight_eq_div_pow v 7
  simp only [encodeVarint64, ne_eq, hshift, hsign]
  split
  · refine ⟨[], _, rfl, .nil hlow.1.1, by simp, ?_⟩
    simp only [List.nil_append, groups, hlow.1.2, hsign, List.length_nil]
    split <;> omega
  · cases room with
    | zero => omega
    | succ room =>
      have hhigh : -64 * 0x80 ^ room ≤ v / 0x80 ∧ v / 0x80 < 64 * 0x80 ^ room := by
        rw [pow_succ] at hv
        omega
      obtain ⟨front, byte, he, hends, hl, hg⟩ := encodeVarint64_spec hhigh
      refine ⟨_ :: front, byte, by rw [he]; rfl, hends.cons hlow.2.1, by simpa, ?_⟩
      rw [List.cons_append, groups, hlow.2.2, Nat.cast_add, Nat.cast_mul, hg]
      split
      · rw [List.length_cons, Nat.mul_succ _ (front.length + 1), pow_add]
        omega
      · omega

/-- The signed decoder reads what the unsigned one reads and extends it at the last byte. -/
theorem decodeSignedLoop_eq {v shift : ℕ} {front : Bytes} {byte : UInt8} (h : Ends front byte) (tl : Bytes) :
    decodeSignedLoop v shift (front ++ byte :: tl)
      = (decodeLoop v shift (front ++ byte :: tl)).map fun r => (extend r.1 (shift + 7 * (front.length + 1)) byte, r.2) := by
  induction front generalizing v shift with
  | nil =>
    rw [List.nil_append, decodeSignedLoop, decodeLoop]
    split
    · rfl
    · rw [if_neg h.last, if_neg h.last]
      rfl
  | cons b front ih =>
    have hc := h.front b List.mem_cons_self
    have hl : shift + 7 + 7 * (front.length + 1) = shift + 7 * ((b :: front).length + 1) := by
      rw [List.length_cons]
      omega
    simp only [List.cons_append, decodeSignedLoop, decodeLoop, if_pos hc, ih h.tail, hl]
    split
    · rfl
    · rw [Option.map_map, Option.map_map]
      rfl

/-- The sign bit takes away what the groups have above the number. -/
theorem extend_emod {n shift : ℕ} (hn : n < 2 ^ shift) (byte : UInt8) :
    (extend (n % 2 ^ 64) shift byte : ℤ) % 2 ^ 64 = (n - if byte.toNat &&& 0x40 ≠ 0 then 2 ^ shift else 0) % 2 ^ 64 := by
  unfold extend
  by_cases hs : byte.toNat &&& 0x40 ≠ 0
  · rw [if_pos hs]
    split
    · rw [Nat.mod_eq_of_lt (hn.trans_le (Nat.pow_le_pow_right (by decide) (by omega))), or_shiftLeft hn (by omega)]
      push_cast
      omega
    · obtain ⟨k, rfl⟩ := Nat.exists_eq_add_of_le (show 64 ≤ shift by omega)
      push_cast
      rw [pow_add]
      omega
  · simp [hs]

/-- What is encoded from a signed number is read back as the number. -/
theorem decodeVarint64_encode (v : Int64) (tl : Bytes) :
    ∃ data, encodeVarint64 10 v.toInt = some data ∧ data ≠ [] ∧ decodeVarint64 (data ++ tl) = some (v, data.length) := by
  have hv : -64 * 0x80 ^ 9 ≤ v.toInt ∧ v.toInt < 64 * 0x80 ^ 9 := by
    have := v.toInt_lt
    have := v.le_toInt
    omega
  obtain ⟨front, byte, he, hends, hl, hg⟩ := encodeVarint64_spec hv
  refine ⟨_, he, by simp, ?_⟩
  rw [decodeVarint64, List.append_assoc, List.singleton_append, decodeSignedLoop_eq hends, decodeLoop_eq hends tl (by decide) (by omega)]
  simp only [Option.map_some, List.length_append, List.length_singleton, Nat.zero_add, Nat.pow_zero, Nat.mul_one]
  congr 2
  -- The cast to `int64_t` depends on the value modulo `2 ^ 64` only.
  rw [← Int64.ofInt_eq_ofNat, Int64.ofInt_eq_iff_bmod_eq_toInt, ← Int.emod_bmod]
  have h := extend_emod (by simpa using groups_lt (front ++ [byte])) byte
  rw [hg, Int.add_sub_cancel] at h
  exact (congrArg (Int.bmod · (2 ^ 64)) h).trans ((Int.emod_bmod ..).trans v.toInt_bmod)

/-- What is encoded from an unsigned number is read back as the number. -/
theorem decodeVaruint64_encode (v : UInt64) (tl : Bytes) :
    ∃ data, encodeVaruint64 10 v.toNat = some data ∧ data ≠ [] ∧ decodeVaruint64 (data ++ tl) = some (v, data.length) := by
  have hv : v.toNat < 0x80 ^ (9 + 1) := v.toNat_lt.trans (by decide)
  obtain ⟨front, byte, he, hends, hl, hg⟩ := encodeVaruint64_spec hv
  refine ⟨_, he, by simp, ?_⟩
  rw [List.append_assoc, List.singleton_append, decodeVaruint64_eq hends tl (by omega), hg, UInt64.ofNat_toNat, List.length_append,
    List.length_singleton]

/-! ## The buffer -/

/-- The error codes of the operations below. -/
inductive Error where
  | invalidArgument | invalidState | outOfRange | full | noMemory
  deriving DecidableEq

/-- `_data` up to `_size`, and the other fields. What is written is within the block. -/
structure ByteBuffer where
  data : Bytes := []
  capacity : ℕ := 0
  readPosition : ℕ := 0
  fixedCapacity : Bool := false
  within : data.length ≤ capacity := by simp

/-- The loop of `reserve_internal`; the capacity is never 0 in it. -/
def grow (required capacity : ℕ) : ℕ :=
  if 0 < capacity ∧ capacity < required then
    if (2 ^ 64 - 1) / 2 < capacity then required else grow required (capacity * 2)
  else capacity
termination_by required - capacity

/-- The loop ends at a capacity that is enough. -/
theorem grow_ge (required : ℕ) {capacity : ℕ} (h : 0 < capacity) : required ≤ grow required capacity := by
  fun_induction grow required capacity with
  | case1 => exact le_rfl
  | case2 capacity _ _ ih => exact ih (by omega)
  | case3 => omega

namespace ByteBuffer

variable (b : ByteBuffer)

/-- `initialize`. Whether memory is there is an input. -/
def initialized (capacity : ℕ) (fixedCapacity memory : Bool) : Except Error ByteBuffer :=
  if 0 < capacity ∧ !memory then .error .noMemory else .ok { capacity, fixedCapacity }

/-- `reserve_internal`: the new capacity. -/
def reserveInternal (required : ℕ) (memory : Bool) : Except Error {capacity // required ≤ capacity} :=
  if h : required ≤ b.capacity then .ok ⟨b.capacity, h⟩
  else if b.fixedCapacity then .error .full
  else if memory then .ok ⟨grow required (if b.capacity = 0 then 16 else b.capacity), grow_ge _ (by grind)⟩
  else .error .noMemory

/-- `append_internal` -/
def append (data : Bytes) (memory : Bool) : Except Error ByteBuffer :=
  if data.length = 0 then .ok b
  else if 2 ^ 64 - 1 - data.length < b.data.length then .error .outOfRange
  else (b.reserveInternal (b.data.length + data.length) memory).map fun ⟨capacity, h⟩ =>
    { b with data := b.data ++ data, capacity, within := by simpa using h }

/-- The buffer after `n` more bytes were read. -/
def consumed (n : ℕ) : ByteBuffer := { b with readPosition := b.readPosition + n }

/-- `read_internal` -/
def read (n : ℕ) : Except Error (Bytes × ByteBuffer) :=
  if n = 0 then .ok ([], b)
  else if b.data.length < b.readPosition then .error .invalidState
  else if b.data.length - b.readPosition < n then .error .outOfRange
  else .ok ((b.data.drop b.readPosition).take n, b.consumed n)

/-- `read_varuint64` and `read_varint64`: a decoder on what was not read yet. A null `_data` is refused by the decoder. -/
def readNumber {α : Type} (decode : Bytes → Option (α × ℕ)) : Except Error (α × ByteBuffer) :=
  if b.data.length < b.readPosition then .error .invalidState
  else if b.capacity = 0 then .error .invalidArgument
  else
    match decode (b.data.drop b.readPosition) with
    | none => .error .outOfRange
    | some (v, n) => .ok (v, b.consumed n)

end ByteBuffer

/-- Which end of a number of fixed width comes first. -/
inductive Order where
  | be | le

/-- Little-endian bytes are the big-endian ones from the other end. -/
def Order.arrange : Order → Bytes → Bytes
  | be, data => data
  | le, data => data.reverse

/-- What a typed append takes and a typed read gives. -/
inductive Item where
  | u8 (v : UInt8)
  | u16 (order : Order) (v : UInt16)
  | u32 (order : Order) (v : UInt32)
  | u64 (order : Order) (v : UInt64)
  | varuint64 (v : UInt64)
  | varint64 (v : Int64)
  | raw (data : Bytes)

/-- The bytes that the typed append of an item hands to `append`: `append_u8`, `append_u16_be`, `append_u16_le` and so on. The output
of the variable lengths has ten bytes. -/
def Item.encode : Item → Option Bytes
  | u8 v => some [v]
  | u16 order v => some (order.arrange (writeU16 v))
  | u32 order v => some (order.arrange (writeU32 v))
  | u64 order v => some (order.arrange (writeU64 v))
  | varuint64 v => encodeVaruint64 10 v.toNat
  | varint64 v => encodeVarint64 10 v.toInt
  | raw data => some data

namespace ByteBuffer

variable (b : ByteBuffer)

/-- The typed append of an item. -/
def appendItem (item : Item) (memory : Bool) : Except Error ByteBuffer :=
  match item.encode with
  | none => .error .outOfRange
  | some bytes => b.append bytes memory

/-- `read_u16_be`, `read_u16_le` and so on: the number that the next bytes spell. -/
def readFixed (width : ℕ) (order : Order) : Except Error (ℕ × ByteBuffer) :=
  (b.read width).map fun (data, b) => (value 0 (order.arrange data), b)

/-- The typed read that goes with the append of an item. -/
def readItem : Item → Except Error (Item × ByteBuffer)
  | .u8 _ => (b.readFixed 1 .be).map fun (v, b) => (.u8 (.ofNat v), b)
  | .u16 order _ => (b.readFixed 2 order).map fun (v, b) => (.u16 order (.ofNat v), b)
  | .u32 order _ => (b.readFixed 4 order).map fun (v, b) => (.u32 order (.ofNat v), b)
  | .u64 order _ => (b.readFixed 8 order).map fun (v, b) => (.u64 order (.ofNat v), b)
  | .varuint64 _ => (b.readNumber decodeVaruint64).map fun (v, b) => (.varuint64 v, b)
  | .varint64 _ => (b.readNumber decodeVarint64).map fun (v, b) => (.varint64 v, b)
  | .raw data => (b.read data.length).map fun (data, b) => (.raw data, b)

/-- The typed appends of some items, each with whether memory is there for it. -/
def appendAll (b : ByteBuffer) : List (Item × Bool) → Except Error ByteBuffer
  | [] => .ok b
  | (item, memory) :: items => do (← b.appendItem item memory).appendAll items

/-- The typed reads of some items. -/
def readAll (b : ByteBuffer) : List Item → Except Error (List Item × ByteBuffer)
  | [] => .ok ([], b)
  | item :: items => do
    let (item, b) ← b.readItem item
    let (items, b) ← b.readAll items
    return (item :: items, b)

/-! ## Reading back -/

variable {b} {b' : ByteBuffer} {data tl : Bytes}

theorem bind_ok {α β : Type} {x : Except Error α} {f : α → Except Error β} {r : β} (h : x >>= f = .ok r) :
    ∃ a, x = .ok a ∧ f a = .ok r := by
  cases x with
  | error => cases h
  | ok a => exact ⟨a, rfl, h⟩

/-- An append that succeeds puts the bytes behind what is there. -/
theorem append_spec {memory : Bool} (h : b.append data memory = .ok b') :
    b'.data = b.data ++ data ∧ b'.readPosition = b.readPosition := by
  unfold append at h
  split at h
  · cases h
    simp_all
  · split at h
    · cases h
    · cases hr : b.reserveInternal (b.data.length + data.length) memory with
      | error => simp [hr, Except.map] at h
      | ok capacity =>
        rw [hr] at h
        cases h
        exact ⟨rfl, rfl⟩

/-- A typed append that succeeds puts the bytes of its item behind what is there. -/
theorem appendItem_spec {item : Item} {memory : Bool} (h : b.appendItem item memory = .ok b') :
    ∃ data, item.encode = some data ∧ b'.data = b.data ++ data ∧ b'.readPosition = b.readPosition := by
  unfold appendItem at h
  split at h
  · cases h
  · exact ⟨_, ‹_›, append_spec h⟩

section

variable (hd : b.data.drop b.readPosition = data ++ tl)

include hd

/-- Bytes that are next are read. -/
theorem read_eq : b.read data.length = .ok (data, b.consumed data.length) := by
  have hl := congrArg List.length hd
  simp only [List.length_drop, List.length_append] at hl
  unfold read
  split
  · simp_all [consumed]
  · rw [if_neg (by omega), if_neg (by omega), hd, List.take_left]

/-- A number that was written in the order of the read is read, cut to its width. -/
theorem readFixed_eq {width n : ℕ} {order : Order} (he : data = order.arrange (write width n)) :
    b.readFixed width order = .ok (n % 256 ^ width, b.consumed width) := by
  have hl : data.length = width := by cases order <;> simp [he, Order.arrange]
  have ha : order.arrange data = write width n := by cases order <;> simp [he, Order.arrange]
  have hr := read_eq hd
  rw [hl] at hr
  simp [readFixed, hr, Except.map, ha, value_write]

/-- A number of variable length that is next is read. -/
theorem readNumber_eq {α : Type} {decode : Bytes → Option (α × ℕ)} {v : α} {n : ℕ} (hn : data ≠ [])
    (h : decode (data ++ tl) = some (v, n)) : b.readNumber decode = .ok (v, b.consumed n) := by
  have hl := congrArg List.length hd
  have hw := b.within
  have hn := List.length_pos_iff.mpr hn
  simp only [List.length_drop, List.length_append] at hl
  rw [readNumber, if_neg (by omega), if_neg (by omega), hd, h]

/-- The typed read of an item gives the item. -/
theorem readItem_eq {item : Item} (he : item.encode = some data) : b.readItem item = .ok (item, b.consumed data.length) := by
  cases item with
  | u8 v =>
    cases he
    have hv : UInt8.ofNat ((v.toNat >>> 0) &&& 0xff) = v := by
      rw [← UInt8.toNat_inj, toNat_byte]
      have := v.toNat_lt
      omega
    have hw : [v] = Order.be.arrange (write 1 v.toNat) := congrArg (fun x => [x]) hv.symm
    rw [readItem, readFixed_eq hd hw]
    simp [Except.map]
  | u16 order v =>
    cases he
    rw [readItem, readFixed_eq hd rfl]
    cases order <;> simp [Except.map, Order.arrange]
  | u32 order v =>
    cases he
    rw [readItem, readFixed_eq hd rfl]
    cases order <;> simp [Except.map, Order.arrange]
  | u64 order v =>
    cases he
    rw [readItem, readFixed_eq hd rfl]
    cases order <;> simp [Except.map, Order.arrange]
  | varuint64 v =>
    obtain ⟨_, he', hne, hdec⟩ := decodeVaruint64_encode v tl
    cases he.symm.trans he'
    rw [readItem, readNumber_eq hd hne hdec]
    rfl
  | varint64 v =>
    obtain ⟨_, he', hne, hdec⟩ := decodeVarint64_encode v tl
    cases he.symm.trans he'
    rw [readItem, readNumber_eq hd hne hdec]
    rfl
  | raw v =>
    cases he
    rw [readItem, read_eq hd]
    rfl

end

/-- The typed appends put bytes behind what is there, and from these bytes the typed reads give the items back. -/
theorem appendAll_spec {items : List (Item × Bool)} (h : b.appendAll items = .ok b') :
    ∃ data, b'.data = b.data ++ data ∧ b'.readPosition = b.readPosition ∧
      ∀ c : ByteBuffer, c.data.drop c.readPosition = data →
        c.readAll (items.map Prod.fst) = .ok (items.map Prod.fst, c.consumed data.length) := by
  induction items generalizing b with
  | nil =>
    cases h
    exact ⟨[], by simp, rfl, fun c _ => rfl⟩
  | cons x items ih =>
    obtain ⟨item, memory⟩ := x
    obtain ⟨b1, ha, h⟩ := bind_ok h
    obtain ⟨first, he, hd1, hr1⟩ := appendItem_spec ha
    obtain ⟨data, hd, hr, hread⟩ := ih h
    refine ⟨first ++ data, by rw [hd, hd1, List.append_assoc], hr.trans hr1, fun c hc => ?_⟩
    -- The first read leaves the bytes of the items behind it.
    have htl : (c.consumed first.length).data.drop (c.consumed first.length).readPosition = data := by
      rw [consumed, ← List.drop_drop, hc, List.drop_left]
    simp only [List.map_cons, readAll, readItem_eq hc he, bind, Except.bind, hread _ htl, pure, Except.pure]
    simp [consumed, Nat.add_assoc]

/-- Typed reads from the start of a buffer give back what the typed appends to it were given, and read all its bytes. -/
theorem readAll_appendAll {capacity : ℕ} {fixedCapacity memory : Bool} {items : List (Item × Bool)}
    (hb : initialized capacity fixedCapacity memory = .ok b) (h : b.appendAll items = .ok b') :
    ∃ c, b'.readAll (items.map Prod.fst) = .ok (items.map Prod.fst, c) ∧ c.data = b'.data ∧ c.readPosition = c.data.length := by
  obtain ⟨data, hd, hr, hread⟩ := appendAll_spec h
  unfold initialized at hb
  split at hb
  · cases hb
  · cases hb
    rw [List.nil_append] at hd
    have hstart : b'.data.drop b'.readPosition = data := by rw [hr, hd, List.drop_zero]
    exact ⟨_, hread b' hstart, rfl, by simp [consumed, hr, hd]⟩

/-- A number from its low byte on, a negative number and a text behind each other. -/
theorem readAll_appendAll_three :
    let items : List (Item × Bool) := [(.u16 .le 513, true), (.varint64 (-2), true), (.raw [7, 8], true)]
    let b' : ByteBuffer := { data := [1, 2, 126, 7, 8], capacity := 16, fixedCapacity := true }
    ({ capacity := 16, fixedCapacity := true } : ByteBuffer).appendAll items = .ok b' ∧
      ∃ c, b'.readAll (items.map Prod.fst) = .ok (items.map Prod.fst, c) ∧ c.data = b'.data ∧ c.readPosition = c.data.length :=
  ⟨rfl, readAll_appendAll (show initialized 16 true true = _ from rfl) rfl⟩

end ByteBuffer

end Libft.Buffer
