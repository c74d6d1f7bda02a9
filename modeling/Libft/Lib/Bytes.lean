import Mathlib.Data.List.Basic
import Mathlib.Data.List.TakeWhile
import Mathlib.Tactic.Ring

/-!
# Bytes in network order

Unsigned integers written most significant byte first and read back from the front of a byte string. A reader takes what it
needs and leaves the rest, so a message is read field by field and the lemma of each field is the same: reading what was
written gives the value and the bytes that follow.
-/

namespace Libft

open Nat

/-- A byte string. -/
abbrev Bytes : Type := List UInt8

/-- The bytes of an ASCII text. -/
def ascii (s : String) : Bytes := s.toList.map fun c => c.toNat.toUInt8

/-- The part of a string that a `const char *` to it shows. -/
def cString (s : Bytes) : Bytes := s.takeWhile (· ≠ 0)

/-- A string without zero bytes is shown as a whole. -/
theorem cString_eq_self {s : Bytes} (h : (0 : UInt8) ∉ s) : cString s = s :=
  List.takeWhile_eq_self_iff.mpr fun b hb => by
    have hne : b ≠ 0 := fun h0 => h (h0 ▸ hb)
    simpa using hne

namespace Bytes

/-- The `width` low bytes of a number, most significant first: byte after byte, the number shifted down and cut to eight bits. -/
def write : Nat → Nat → Bytes
  | 0, _ => []
  | width + 1, value => UInt8.ofNat ((value >>> (8 * width)) &&& 0xff) :: write width value

/-- The number that bytes spell, on top of the bytes already read. -/
def value (acc : Nat) : Bytes → Nat
  | [] => acc
  | byte :: rest => value ((acc <<< 8) ||| byte.toNat) rest

/-- Read `width` bytes from the front, when there are that many. -/
def read (width : Nat) (data : Bytes) : Option (Nat × Bytes) :=
  if data.length < width then none else some (value 0 (data.take width), data.drop width)

@[simp] theorem length_write (w n : Nat) : (write w n).length = w := by
  induction w with
  | zero => rfl
  | succ w ih => simp [write, ih]

/-- Appending a byte to what is read multiplies by 256 and adds it. -/
theorem shift_or_byte (acc : Nat) (byte : UInt8) : (acc <<< 8) ||| byte.toNat = acc * 256 + byte.toNat := by
  rw [← shiftLeft_add_eq_or_of_lt (by simpa using byte.toNat_lt), shiftLeft_eq]

theorem value_cons (acc : Nat) (byte : UInt8) (tl : Bytes) : value acc (byte :: tl) = value (acc * 256 + byte.toNat) tl := by
  rw [value, shift_or_byte]

/-- A byte of a number, as the number it is. -/
theorem toNat_byte (n shift : Nat) : (UInt8.ofNat ((n >>> shift) &&& 0xff)).toNat = n / 2 ^ shift % 256 := by
  have h : (n >>> shift) &&& 0xff = n / 2 ^ shift % 256 := by
    rw [shiftRight_eq_div_pow]
    exact and_two_pow_sub_one_eq_mod _ 8
  rw [h]
  simp

/-- Reading written bytes on top of an accumulator shifts it up by the width and adds the number, cut to the width. -/
theorem value_write (w n acc : Nat) : value acc (write w n) = acc * 256 ^ w + n % 256 ^ w := by
  induction w generalizing acc with
  | zero => simp [write, value, mod_one]
  | succ w ih =>
    have hp : (2 : Nat) ^ (8 * w) = 256 ^ w := by rw [Nat.pow_mul]
    rw [write, value_cons, ih, toNat_byte, hp, pow_succ, mod_mul]
    ring

/-- What was written is read, cut to the width. -/
theorem read_write (w n : Nat) (tl : Bytes) : read w (write w n ++ tl) = some (n % 256 ^ w, tl) := by
  have h : ¬(write w n ++ tl).length < w := by simp
  rw [read, if_neg h, List.take_left' (length_write w n), List.drop_left' (length_write w n), value_write]
  simp

/-- What `read` leaves is the data without the bytes it took. -/
theorem read_eq_some {w n : Nat} {data tl : Bytes} (h : read w data = some (n, tl)) :
    tl = data.drop w := by
  obtain ⟨-, ⟨⟩⟩ := Option.ite_none_left_eq_some.mp h
  rfl

/-! ## Fixed widths -/

/-- `uint16_t` in network order. -/
def writeU16 (n : UInt16) : Bytes := write 2 n.toNat

/-- `uint32_t` in network order. -/
def writeU32 (n : UInt32) : Bytes := write 4 n.toNat

/-- `uint64_t` in network order. -/
def writeU64 (n : UInt64) : Bytes := write 8 n.toNat

/-- Read one byte from the front. -/
def readU8 : Bytes → Option (UInt8 × Bytes)
  | [] => none
  | byte :: rest => some (byte, rest)

/-- The reader of `writeU16`. -/
def readU16 (data : Bytes) : Option (UInt16 × Bytes) := (read 2 data).map fun r => (UInt16.ofNat r.1, r.2)

/-- The reader of `writeU32`. -/
def readU32 (data : Bytes) : Option (UInt32 × Bytes) := (read 4 data).map fun r => (UInt32.ofNat r.1, r.2)

/-- The reader of `writeU64`. -/
def readU64 (data : Bytes) : Option (UInt64 × Bytes) := (read 8 data).map fun r => (UInt64.ofNat r.1, r.2)

@[simp] theorem length_writeU16 (n : UInt16) : (writeU16 n).length = 2 := length_write 2 _
@[simp] theorem length_writeU32 (n : UInt32) : (writeU32 n).length = 4 := length_write 4 _
@[simp] theorem length_writeU64 (n : UInt64) : (writeU64 n).length = 8 := length_write 8 _

@[simp] theorem readU8_cons (byte : UInt8) (tl : Bytes) : readU8 (byte :: tl) = some (byte, tl) := rfl

/-- A 16-bit field is read back. -/
@[simp] theorem readU16_write (n : UInt16) (tl : Bytes) : readU16 (writeU16 n ++ tl) = some (n, tl) := by
  simp [readU16, writeU16, read_write]

/-- A 32-bit field is read back. -/
@[simp] theorem readU32_write (n : UInt32) (tl : Bytes) : readU32 (writeU32 n ++ tl) = some (n, tl) := by
  simp [readU32, writeU32, read_write]

/-- A 64-bit field is read back. -/
@[simp] theorem readU64_write (n : UInt64) (tl : Bytes) : readU64 (writeU64 n ++ tl) = some (n, tl) := by
  simp [readU64, writeU64, read_write]

/-- A reader that goes on with what was written: the value and the bytes that follow. -/
theorem readU64_write_bind {α : Type} (n : UInt64) (tl : Bytes) (f : UInt64 × Bytes → Option α) :
    (readU64 (writeU64 n ++ tl) >>= f) = f (n, tl) := by
  simp

theorem readU32_write_bind {α : Type} (n : UInt32) (tl : Bytes) (f : UInt32 × Bytes → Option α) :
    (readU32 (writeU32 n ++ tl) >>= f) = f (n, tl) := by
  simp

theorem readU16_write_bind {α : Type} (n : UInt16) (tl : Bytes) (f : UInt16 × Bytes → Option α) :
    (readU16 (writeU16 n ++ tl) >>= f) = f (n, tl) := by
  simp

theorem readU8_cons_bind {α : Type} (byte : UInt8) (tl : Bytes) (f : UInt8 × Bytes → Option α) :
    (readU8 (byte :: tl) >>= f) = f (byte, tl) := rfl

/-- The same at the end of a message. -/
@[simp] theorem readU64_write_last (n : UInt64) : readU64 (writeU64 n) = some (n, []) := by
  simpa using readU64_write n []

end Bytes

end Libft
