import Libft.Lib.Bytes
import Mathlib.Data.Nat.Digits.Defs

/-!
# Decimal numerals

The numeral of a natural number as a byte string, and the number that a string of digits spells. Strings of digits of one length are in
the order of the numbers they spell (`lt_iff_value_lt`); zeros in front do not change the number (`value_stripZeros`). For algorithms that
go from the last digit to the first there is the number that digits spell in that order (`lowValue`).
-/

namespace Libft

open List Nat UInt8

namespace Decimal

/-- `0` to `9`. -/
def isDigit (b : UInt8) : Bool := 48 ≤ b && b ≤ 57

/-- The value of a digit. -/
def digitValue (b : UInt8) : Nat := b.toNat - 48

/-- The digit of a number below ten. -/
def digit (d : Nat) : UInt8 := ofNat (48 + d)

/-- The number that digits spell, after those that spell `acc`. -/
def value (acc : Nat) (t : Bytes) : Nat := t.foldl (fun acc b => acc * 10 + digitValue b) acc

/-- The numeral of a number. -/
def text (n : Nat) : Bytes := if n = 0 then [48] else (Nat.digits 10 n).reverse.map digit

/-- Digits without the zeros in front; the last digit stays. -/
def stripZeros : Bytes → Bytes
  | 48 :: b :: rest => stripZeros (b :: rest)
  | digits => digits

/-- Nothing but digits. -/
def Digits (t : Bytes) : Prop := ∀ b ∈ t, isDigit b = true

instance instDecidableDigits (t : Bytes) : Decidable (Digits t) := List.decidableBAll (fun b => isDigit b = true) t

variable {b : UInt8} {d : Nat}

/-- Digits are the bytes from 48 to 57. -/
theorem isDigit_iff : isDigit b = true ↔ 48 ≤ b.toNat ∧ b.toNat ≤ 57 := by
  simp [isDigit, le_iff_toNat_le]

/-- A digit is worth less than ten. -/
theorem digitValue_lt (h : isDigit b = true) : digitValue b < 10 := by
  have := isDigit_iff.mp h
  unfold digitValue
  omega

/-- The byte of a digit. -/
theorem toNat_digit (h : d < 10) : (digit d).toNat = 48 + d := by
  simp only [digit, toNat_ofNat']
  omega

theorem digitValue_eq_zero (h : isDigit b = true) : digitValue b = 0 ↔ b = 0x30 := by
  have hb := isDigit_iff.mp h
  have h48 : (0x30 : UInt8).toNat = 48 := rfl
  rw [← UInt8.toNat_inj, digitValue]
  omega

theorem isDigit_digit (h : d < 10) : isDigit (digit d) = true := by
  rw [isDigit_iff, toNat_digit h]
  omega

theorem digitValue_digit (h : d < 10) : digitValue (digit d) = d := by
  rw [digitValue, toNat_digit h]
  omega

variable {t : Bytes}

theorem Digits.tail (h : Digits (b :: t)) : Digits t :=
  (forall_mem_cons.mp h).2

theorem Digits.head (h : Digits (b :: t)) : isDigit b = true :=
  h b mem_cons_self

theorem digits_nil : Digits [] := fun _ hb => absurd hb not_mem_nil

theorem Digits.cons (hb : isDigit b = true) (ht : Digits t) : Digits (b :: t) :=
  forall_mem_cons.mpr ⟨hb, ht⟩

theorem Digits.reverse (h : Digits t) : Digits t.reverse :=
  fun b hb => h b (mem_reverse.mp hb)

theorem Digits.listTail (h : Digits t) : Digits t.tail := fun b hb => h b (mem_of_mem_tail hb)

/-- The front of a text is read first. -/
theorem value_append (acc : Nat) (t u : Bytes) : value acc (t ++ u) = value (value acc t) u := foldl_append

/-- What was read before counts as a front of its own. -/
theorem value_eq (acc : Nat) (t : Bytes) : value acc t = acc * 10 ^ t.length + value 0 t := by
  induction t generalizing acc with
  | nil => simp [value]
  | cons b t ih =>
    have hc : ∀ acc, value acc (b :: t) = value (acc * 10 + digitValue b) t := fun _ => rfl
    rw [hc, hc, ih, ih (0 * 10 + digitValue b), length_cons, pow_succ]
    ring

/-- The first digit counts by its place. -/
theorem value_cons (b : UInt8) (t : Bytes) : value 0 (b :: t) = digitValue b * 10 ^ t.length + value 0 t := by
  have h : value 0 (b :: t) = value (0 * 10 + digitValue b) t := rfl
  rw [h, value_eq]
  simp

/-- A text of digits is below the power of ten of its length. -/
theorem value_lt (h : Digits t) : value 0 t < 10 ^ t.length := by
  induction t with
  | nil => simp [value]
  | cons b t ih =>
    have hb : digitValue b + 1 ≤ 10 := digitValue_lt h.head
    have ht : value 0 t < 10 ^ t.length := ih h.tail
    rw [value_cons, length_cons, pow_succ]
    calc digitValue b * 10 ^ t.length + value 0 t
      _ < digitValue b * 10 ^ t.length + 10 ^ t.length := by omega
      _ = (digitValue b + 1) * 10 ^ t.length := by ring
      _ ≤ 10 * 10 ^ t.length := mul_le_mul_right _ hb
      _ = 10 ^ t.length * 10 := by ring

/-! ## The lowest digit first -/

/-- The number that digits spell with the lowest first. -/
def lowValue : Bytes → Nat
  | [] => 0
  | b :: t => digitValue b + 10 * lowValue t

/-- A text read from the back has its low value. -/
theorem value_reverse (t : Bytes) : value 0 t.reverse = lowValue t := by
  induction t with
  | nil => rfl
  | cons b t ih =>
    have hone : ∀ acc, value acc [b] = acc * 10 + digitValue b := fun _ => rfl
    rw [reverse_cons, value_append, ih, hone, lowValue]
    omega

/-- Low values are read from the other end. -/
theorem lowValue_reverse (t : Bytes) : lowValue t.reverse = value 0 t := by
  rw [← value_reverse, reverse_reverse]

/-! ## The order of digits -/

/-- Strings of digits of one length are in the order of what they spell. -/
theorem lt_iff_value_lt {u : Bytes} (ht : Digits t) (hu : Digits u) (hl : t.length = u.length) : t < u ↔ value 0 t < value 0 u := by
  induction t generalizing u with
  | nil =>
    cases u with
    | nil => simp
    | cons c u => simp at hl
  | cons b t ih =>
    cases u with
    | nil => simp at hl
    | cons c u =>
      have hl' : t.length = u.length := by simpa using hl
      have hvt : value 0 t < 10 ^ u.length := hl' ▸ value_lt ht.tail
      have hvu : value 0 u < 10 ^ u.length := value_lt hu.tail
      have hb := isDigit_iff.mp ht.head
      have hc := isDigit_iff.mp hu.head
      rw [cons_lt_cons_iff, value_cons, value_cons, hl', UInt8.lt_iff_toNat_lt, ← UInt8.toNat_inj, ih ht.tail hu.tail hl']
      unfold digitValue
      -- the first digits decide, unless they are the same
      rcases lt_trichotomy b.toNat c.toNat with hlt | heq | hgt
      · have hm : (b.toNat - 48 + 1) * 10 ^ u.length ≤ (c.toNat - 48) * 10 ^ u.length := mul_le_mul_right _ (by omega)
        rw [add_mul] at hm
        exact iff_of_true (Or.inl hlt) (by omega)
      · rw [heq]
        simp
      · have hm : (c.toNat - 48 + 1) * 10 ^ u.length ≤ (b.toNat - 48) * 10 ^ u.length := mul_le_mul_right _ (by omega)
        rw [add_mul] at hm
        exact iff_of_false (by omega) (by omega)

/-! ## Zeros in front -/

/-- Leading zeros do not count. -/
theorem value_stripZeros (t : Bytes) : value 0 (stripZeros t) = value 0 t := by
  fun_induction stripZeros t with
  | case1 b tl ih =>
    rw [ih, value_cons 48]
    simp [digitValue]
  | case2 => rfl

/-- Stripping zeros takes nothing else away. -/
theorem stripZeros_sublist (t : Bytes) : (stripZeros t).Sublist t := by
  fun_induction stripZeros t with
  | case1 b tl ih => exact ih.trans (sublist_cons_self _ _)
  | case2 => exact List.Sublist.refl _

theorem stripZeros_cons (hb : b ≠ 48) (t : Bytes) : stripZeros (b :: t) = b :: t := by
  unfold Decimal.stripZeros
  split
  · next h => exact absurd (cons.inj h).1 hb
  · rfl

theorem Digits.stripZeros (h : Digits t) : Digits (stripZeros t) :=
  fun b hb => h b ((stripZeros_sublist t).subset hb)

/-- Two digits or more that are left begin with one that is not zero, so they spell a number of that length. -/
theorem pow_le_value_stripZeros (h : Digits t) (hl : 2 ≤ (stripZeros t).length) :
    10 ^ ((stripZeros t).length - 1) ≤ value 0 (stripZeros t) := by
  fun_induction stripZeros t with
  | case1 b tl ih => exact ih h.tail hl
  | case2 dg hne =>
    rcases dg with _ | ⟨b, _ | ⟨c, tl⟩⟩
    · simp at hl
    · simp at hl
    · have h0 : digitValue b ≠ 0 := fun h0 => hne c tl (by rw [(digitValue_eq_zero h.head).mp h0])
      rw [value_cons, length_cons, Nat.add_sub_cancel]
      have hm : 1 * 10 ^ (c :: tl).length ≤ digitValue b * 10 ^ (c :: tl).length := mul_le_mul_right _ (pos_of_ne_zero h0)
      omega

/-- What was stripped once has no more zeros in front. -/
theorem stripZeros_stripZeros (t : Bytes) : stripZeros (stripZeros t) = stripZeros t := by
  fun_induction stripZeros t with
  | case1 b tl ih => exact ih
  | case2 dg hne =>
    rw [Decimal.stripZeros.eq_def]
    split
    · next b tl => exact absurd rfl (hne b tl)
    · rfl

end Decimal

end Libft
