import Libft.Lib.Bytes

/-!
# Numbers of variable length

`buffer_decode_varuint64` (`buffer_byte_buffer.cpp`) reads a number in groups of seven bits, the lowest first. A byte with the top bit set
has another group behind it. The group at shift 63 has one bit that fits into 64 bits; the others are shifted out.
-/

namespace Libft.Buffer

open List Nat

/-- The continuation bit of a byte. -/
def continues (byte : UInt8) : Prop := byte.toNat &&& 0x80 ≠ 0

instance : DecidablePred continues := fun byte => inferInstanceAs (Decidable (byte.toNat &&& 0x80 ≠ 0))

/-- The loop of `buffer_decode_varuint64`: the value and the number of bytes read. Without a result the code is
`FT_ERR_OUT_OF_RANGE`. -/
def decodeLoop : ℕ → ℕ → Bytes → Option (ℕ × ℕ)
  | _, _, [] => none
  | value, shift, byte :: rest =>
    if 64 ≤ shift then none
    else
      let value := value ||| ((byte.toNat &&& 0x7F) <<< shift) % 2 ^ 64
      if continues byte then (decodeLoop value (shift + 7) rest).map fun (value, index) => (value, index + 1)
      else some (value, 1)

/-- `buffer_decode_varuint64` -/
def decodeVaruint64 (buffer : Bytes) : Option (UInt64 × ℕ) := (decodeLoop 0 0 buffer).map fun (value, index) => (.ofNat value, index)

/-- The number that groups of seven bits spell, the lowest first. -/
def groups : Bytes → ℕ
  | [] => 0
  | byte :: rest => byte.toNat % 0x80 + 0x80 * groups rest

/-- Bytes with the continuation bit and one without. -/
structure Ends (front : Bytes) (byte : UInt8) : Prop where
  front : ∀ b ∈ front, continues b
  last : ¬continues byte

variable {v shift : ℕ} {front : Bytes} {b byte : UInt8}

theorem Ends.nil (h : ¬continues byte) : Ends [] byte := ⟨forall_mem_nil _, h⟩

theorem Ends.cons (h : Ends front byte) (hb : continues b) : Ends (b :: front) byte := ⟨forall_mem_cons.mpr ⟨hb, h.front⟩, h.last⟩

theorem Ends.tail (h : Ends (b :: front) byte) : Ends front byte := ⟨(forall_mem_cons.mp h.front).2, h.last⟩

theorem groups_lt (data : Bytes) : groups data < 2 ^ (7 * data.length) := by
  induction data with
  | nil => simp [groups]
  | cons byte tl ih =>
    rw [groups, length_cons, mul_succ, Nat.pow_add]
    omega

theorem groups_concat (front : Bytes) (byte : UInt8) :
    groups (front ++ [byte]) = groups front + byte.toNat % 0x80 * 2 ^ (7 * front.length) := by
  induction front with
  | nil => simp [groups]
  | cons b front ih =>
    simp only [cons_append, groups, ih, length_cons]
    ring

/-- A number of at most ten groups fits when the tenth is at most one. -/
theorem groups_lt_iff (hl : front.length < 10) (byte : UInt8) :
    groups (front ++ [byte]) < 2 ^ 64 ↔ (front.length = 9 → byte.toNat % 0x80 ≤ 1) := by
  have hg := groups_lt front
  rw [groups_concat]
  obtain he | hlt : front.length = 9 ∨ front.length ≤ 8 := by omega
  · rw [he] at hg ⊢
    omega
  · have := groups_lt (front ++ [byte])
    have := Nat.pow_le_pow_right (show 0 < 2 by decide) (show 7 * (front.length + 1) ≤ 63 by omega)
    simp [groups_concat] at *
    omega

theorem and_0x7F (n : ℕ) : n &&& 0x7F = n % 0x80 := and_two_pow_sub_one_eq_mod n 7

/-- A number put above the bits that are there, cut to 64 bits. -/
theorem or_shiftLeft (hv : v < 2 ^ shift) (hs : shift ≤ 64) (n : ℕ) :
    v ||| (n <<< shift) % 2 ^ 64 = (v + n * 2 ^ shift) % 2 ^ 64 := by
  obtain ⟨k, hk⟩ := Nat.exists_eq_add_of_le hs
  rw [hk, Nat.pow_add, shiftLeft_eq, Nat.mul_comm (2 ^ shift), mul_mod_mul_right, Nat.or_comm, ← shiftLeft_eq,
    ← shiftLeft_add_eq_or_of_lt hv, shiftLeft_eq, Nat.mul_comm (2 ^ k), mod_mul, add_mul_mod_self_right, mod_eq_of_lt hv,
    add_mul_div_right _ _ (Nat.two_pow_pos shift), div_eq_of_lt hv, Nat.zero_add, Nat.add_comm, Nat.mul_comm]

/-- What the loop makes of a number that ends: its groups on top of what is there, modulo `2 ^ 64`. -/
theorem decodeLoop_eq (h : Ends front byte) (tl : Bytes) (hv : v < 2 ^ shift) (hs : shift + 7 * front.length < 64) :
    decodeLoop v shift (front ++ byte :: tl) = some ((v + groups (front ++ [byte]) * 2 ^ shift) % 2 ^ 64, front.length + 1) := by
  induction front generalizing v shift with
  | nil =>
    rw [length_nil] at hs
    rw [nil_append, decodeLoop, if_neg (by omega), if_neg h.last, and_0x7F, or_shiftLeft hv (by omega)]
    simp [groups]
  | cons b front ih =>
    rw [length_cons] at hs
    have hlt : (v + b.toNat % 0x80 * 2 ^ shift) % 2 ^ 64 < 2 ^ (shift + 7) := by
      have := Nat.mul_le_mul_right (2 ^ shift) (show b.toNat % 0x80 ≤ 127 by omega)
      refine (mod_le ..).trans_lt ?_
      rw [Nat.pow_add]
      omega
    rw [cons_append, decodeLoop, if_neg (by omega), if_pos (h.front b mem_cons_self), and_0x7F, or_shiftLeft hv (by omega),
      ih h.tail hlt (by omega)]
    have hg : v + b.toNat % 0x80 * 2 ^ shift + groups (front ++ [byte]) * 2 ^ (shift + 7)
        = v + groups (b :: (front ++ [byte])) * 2 ^ shift := by
      rw [groups]
      ring
    simp [hg]

/-- What the loop accepts ends with a byte at a shift below 64. -/
theorem ends_of_decodeLoop {data : Bytes} {r : ℕ × ℕ} (h : decodeLoop v shift data = some r) :
    ∃ front byte tl, data = front ++ byte :: tl ∧ Ends front byte ∧ shift + 7 * front.length < 64 := by
  induction data generalizing v shift r with
  | nil => cases h
  | cons b data ih =>
    rw [decodeLoop] at h
    split at h
    · cases h
    · split at h
      · obtain ⟨_, hr, -⟩ := Option.map_eq_some_iff.mp h
        obtain ⟨front, byte, tl, rfl, he, hs⟩ := ih hr
        exact ⟨b :: front, byte, tl, rfl, he.cons ‹_›, by simp; omega⟩
      · exact ⟨[], b, data, rfl, .nil ‹_›, by simp; omega⟩

theorem decodeVaruint64_eq (h : Ends front byte) (tl : Bytes) (hl : front.length < 10) :
    decodeVaruint64 (front ++ byte :: tl) = some (.ofNat (groups (front ++ [byte])), front.length + 1) := by
  rw [decodeVaruint64, decodeLoop_eq h tl (by decide) (by omega)]
  simp only [Option.map_some, Nat.zero_add, Nat.pow_zero, Nat.mul_one, UInt64.ofNat_mod_size]

/-- The value is that of the groups exactly when they fit. -/
theorem toNat_eq_groups_iff (hl : front.length < 10) (byte : UInt8) (tl : Bytes) :
    (UInt64.ofNat (groups (front ++ [byte]))).toNat = groups ((front ++ byte :: tl).take (front.length + 1)) ↔
      (front.length = 9 → byte.toNat % 0x80 ≤ 1) := by
  rw [append_cons front byte tl, take_left' (by simp), UInt64.toNat_ofNat', mod_eq_iff_lt (by decide), groups_lt_iff hl]

/-- The decoder returns the value of the groups it read, unless there are ten of them and the last is more than one: then bits are lost. -/
theorem decodeVaruint64_exact_iff (data : Bytes) :
    (∀ v n, decodeVaruint64 data = some (v, n) → v.toNat = groups (data.take n)) ↔
      ∀ front byte rest, data = front ++ byte :: rest → Ends front byte → front.length = 9 → byte.toNat % 0x80 ≤ 1 := by
  constructor
  · rintro h front byte tl rfl he hl
    have hlt : front.length < 10 := by omega
    exact (toNat_eq_groups_iff hlt byte tl).mp (h _ _ (decodeVaruint64_eq he tl hlt)) hl
  · intro h v n hv
    obtain ⟨_, hr, -⟩ := Option.map_eq_some_iff.mp hv
    obtain ⟨front, byte, tl, rfl, he, hs⟩ := ends_of_decodeLoop hr
    have hlt : front.length < 10 := by omega
    rw [decodeVaruint64_eq he tl hlt] at hv
    cases hv
    exact (toNat_eq_groups_iff hlt byte tl).mpr (h front byte tl rfl he)

/-- Nine empty groups and a two: the value is `2 ^ 64`, and 0 is returned. -/
theorem decodeVaruint64_wraps :
    decodeVaruint64 (replicate 9 0x80 ++ [0x02]) = some (0, 10) ∧ groups (replicate 9 0x80 ++ [0x02]) = 2 ^ 64 := by
  decide +kernel

end Libft.Buffer
