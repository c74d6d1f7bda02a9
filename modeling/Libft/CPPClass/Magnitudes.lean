import Libft.CPPClass.BigNumber
import Mathlib.Order.Compare

/-!
# What the loops over digits compute

Each loop of `ft_big_number` in terms of the numbers that digits spell: `compareMagnitude` compares them, and `addMagnitude`,
`subtractMagnitude` and `multiplyMagnitude` spell their sum, difference and product, without zeros in front. The carries of a sum and of
a difference stay below two; a product fits into the places that were made for it.
-/

namespace Libft.CPPClass

open Decimal List Nat Bool

variable {left right : Bytes}

/-! ## Comparison -/

variable {t : Bytes} {b : UInt8} {ps carry : Nat} {res : Bytes}

/-- A number is zero when all its digits are. -/
theorem isZeroValue_iff (h : Digits t) : isZeroValue t = true ↔ value 0 t = 0 := by
  induction t with
  | nil => simp [isZeroValue, value]
  | cons b t ih =>
    have hp : 10 ^ t.length ≠ 0 := by positivity
    have hr : isZeroValue (b :: t) = true ↔ b = 0x30 ∧ isZeroValue t = true := by simp [isZeroValue]
    rw [hr, ih h.tail, value_cons, ← digitValue_eq_zero h.head]
    constructor
    · rintro ⟨hb0, ht0⟩
      rw [hb0, ht0, zero_mul]
    · intro hs
      have hm : digitValue b * 10 ^ t.length = 0 := by omega
      exact ⟨(Nat.mul_eq_zero.mp hm).resolve_right hp, by omega⟩

theorem value_ne_zero (h : Digits t) (hne : ¬isZeroValue t = true) : 0 < value 0 t :=
  pos_of_ne_zero fun h0 => hne ((isZeroValue_iff h).mpr h0)

/-- Two texts of as many digits are compared as the numbers they spell. -/
theorem compareDigits_eq (hl : Digits left) (hr : Digits right) (hn : left.length = right.length) :
    compareDigits left right = compare (value 0 left) (value 0 right) := by
  induction left generalizing right with
  | nil =>
    cases right with
    | nil => rfl
    | cons r right => simp at hn
  | cons l left ih =>
    cases right with
    | nil => simp at hn
    | cons r right =>
      have hl' : left.length = right.length := by simpa using hn
      rw [compareDigits]
      -- the first digits decide, unless they are the same
      split
      · next hgt =>
        have hlt : r :: right < l :: left := cons_lt_cons_iff.mpr (Or.inl hgt)
        exact (compare_gt_iff_gt.mpr ((lt_iff_value_lt hr hl hn.symm).mp hlt)).symm
      · next ht =>
        split
        · next hlt =>
          have ht' : l :: left < r :: right := cons_lt_cons_iff.mpr (Or.inl hlt)
          exact (compare_lt_iff_lt.mpr ((lt_iff_value_lt hl hr hn).mp ht')).symm
        · next hnlt =>
          have heq : l = r := UInt8.le_antisymm (UInt8.not_lt.mp ht) (UInt8.not_lt.mp hnlt)
          rw [ih hl.tail hr.tail hl', value_cons, value_cons, heq, hl']
          simp only [compare_eq_ite_lt, add_lt_add_iff_left]

/-- A number with more digits is greater, if there are no zeros in front. -/
theorem value_lt_of_length_lt (hl : Digits left) (hr : Digits right) (hs : stripZeros right = right)
    (hne : ¬isZeroValue left = true) (hn : left.length < right.length) : value 0 left < value 0 right := by
  have hpos : left ≠ [] := by
    rintro rfl
    exact hne rfl
  have hln : 2 ≤ (stripZeros right).length := by
    have := length_pos_of_ne_nil hpos
    rw [hs]
    omega
  have hp := pow_le_value_stripZeros hr hln
  rw [hs] at hp
  calc value 0 left
    _ < 10 ^ left.length := value_lt hl
    _ ≤ 10 ^ (right.length - 1) := Nat.pow_le_pow_right (by decide) (by omega)
    _ ≤ value 0 right := hp

/-- Comparing digits compares values, without leading zeros. -/
theorem compareMagnitude_eq (hl : Digits left) (hr : Digits right) (hsl : stripZeros left = left)
    (hsr : stripZeros right = right) : compareMagnitude left right = compare (value 0 left) (value 0 right) := by
  unfold compareMagnitude
  by_cases hzl : isZeroValue left = true
  · have hl0 := (isZeroValue_iff hl).mp hzl
    by_cases hzr : isZeroValue right = true
    · rw [if_pos ⟨hzl, hzr⟩, hl0, (isZeroValue_iff hr).mp hzr]
      rfl
    · rw [if_neg fun h => hzr h.2, if_pos hzl, hl0]
      exact (compare_lt_iff_lt.mpr (value_ne_zero hr hzr)).symm
  · by_cases hzr : isZeroValue right = true
    · rw [if_neg fun h => hzl h.1, if_neg hzl, if_pos hzr, (isZeroValue_iff hr).mp hzr]
      exact (compare_gt_iff_gt.mpr (value_ne_zero hl hzl)).symm
    · rw [if_neg fun h => hzl h.1, if_neg hzl, if_neg hzr]
      split
      · next hlt => exact (compare_gt_iff_gt.mpr (value_lt_of_length_lt hr hl hsl hzr hlt)).symm
      · split
        · next hlt => exact (compare_lt_iff_lt.mpr (value_lt_of_length_lt hl hr hsr hzl hlt)).symm
        · exact compareDigits_eq hl hr (by omega)

/-! ## Zeros in front -/

/-- What does not start with a zero is not stripped. -/
theorem stripZeros_eq_self (h : t.head? ≠ some 0x30) : stripZeros t = t := by
  cases t with
  | nil => rfl
  | cons b t => exact stripZeros_cons (fun hb => h (by rw [hb]; rfl)) t

theorem stripZeros_singleton (b : UInt8) : stripZeros [b] = [b] := by
  rw [stripZeros]
  intro c t h
  cases h

/-- A zero before another digit would be stripped. -/
theorem ne_zero_of_stripZeros {c : UInt8} (h : stripZeros (b :: c :: t) = b :: c :: t) : b ≠ 0x30 := by
  rintro rfl
  have hl := (stripZeros_sublist (c :: t)).length_le
  have hs : stripZeros (48 :: c :: t) = stripZeros (c :: t) := by rw [stripZeros]
  rw [← hs, h] at hl
  simp at hl

/-- A stripped number other than zero does not start with a zero. -/
theorem head?_ne_of_stripZeros (h : stripZeros t = t) (hne : ¬isZeroValue t = true) : t.head? ≠ some 0x30 := by
  rcases t with _ | ⟨b, _ | ⟨c, t⟩⟩
  · simp
  · intro hb
    cases hb
    exact hne rfl
  · exact fun hb => ne_zero_of_stripZeros h (Option.some.inj hb)

/-! ## Sums -/

/-- The low digit and the others. -/
theorem lowValue_eq (t : Bytes) : lowValue t = nextValue t + 10 * lowValue t.tail := by
  cases t <;> rfl

theorem addLoop_nil (ps : Nat) : addLoop ps [] [] 0 = [] := by
  cases ps with
  | zero => rfl
  | succ ps => rw [addLoop, if_pos ⟨rfl, rfl, rfl⟩]

/-- Where there are places for all digits and a last carry, the loop writes the sum. -/
theorem lowValue_addLoop (hl : Digits left) (hr : Digits right) (hc : carry ≤ 1)
    (hlf : left.length < ps) (hrg : right.length < ps) :
    lowValue (addLoop ps left right carry) = lowValue left + lowValue right + carry := by
  induction ps generalizing left right carry with
  | zero => omega
  | succ ps ih =>
    have hlv := nextValue_lt hl
    have hrv := nextValue_lt hr
    rw [addLoop]
    split
    · next hd =>
      obtain ⟨rfl, rfl, rfl⟩ := hd
      rfl
    · next hm =>
      dsimp only
      rw [lowValue, digitValue_digit (mod_lt _ (by decide)), lowValue_eq left, lowValue_eq right]
      have hc' : (carry + nextValue left + nextValue right) / 10 ≤ 1 := by omega
      by_cases hp : left.tail.length < ps ∧ right.tail.length < ps
      · rw [ih hl.listTail hr.listTail hc' hp.1 hp.2]
        omega
      · -- the last place takes the carry
        have hn : left.length = 0 ∧ right.length = 0 := by
          rw [length_tail, length_tail] at hp
          omega
        obtain ⟨rfl, rfl⟩ : left = [] ∧ right = [] := ⟨length_eq_zero_iff.mp hn.1, length_eq_zero_iff.mp hn.2⟩
        have hz : (carry + nextValue [] + nextValue []) / 10 = 0 := by
          simp only [nextValue]
          omega
        rw [hz, tail_nil, addLoop_nil]
        simp only [nextValue, lowValue]
        omega

/-- Only no digits spell zero with a highest digit that is not zero. -/
theorem eq_nil_of_lowValue (h : Digits t) (hp : t.getLast? ≠ some 0x30) (hz : lowValue t = 0) : t = [] := by
  induction t with
  | nil => rfl
  | cons b t ih =>
    rw [lowValue] at hz
    have ht : t = [] := ih h.tail (fun hl => hp (by rw [getLast?_cons, hl]; rfl)) (by omega)
    have hb0 : b = 0x30 := (digitValue_eq_zero h.head).mp (by omega)
    rw [ht, hb0] at hp
    exact absurd rfl hp

theorem getLast?_tail_ne (h : t.getLast? ≠ some b) : t.tail.getLast? ≠ some b := by
  rcases t with _ | ⟨a, _ | ⟨c, t⟩⟩
  · exact h
  · simp
  · rwa [getLast?_cons_cons] at h

/-- The highest digit of a sum is not zero if those of the numbers are not. -/
theorem getLast?_addLoop (hl : Digits left) (hr : Digits right) (hc : carry ≤ 1)
    (hlf : left.length < ps) (hrg : right.length < ps) (htl : left.getLast? ≠ some 0x30)
    (htr : right.getLast? ≠ some 0x30) : (addLoop ps left right carry).getLast? ≠ some 0x30 := by
  induction ps generalizing left right carry with
  | zero => omega
  | succ ps ih =>
    have hv := lowValue_addLoop hl hr hc hlf hrg
    have hlv := nextValue_lt hl
    have hrv := nextValue_lt hr
    by_cases hd : left = [] ∧ right = [] ∧ carry = 0
    · simp [addLoop, hd]
    rw [addLoop, if_neg hd] at hv ⊢
    dsimp only at hv ⊢
    cases hrs : addLoop ps left.tail right.tail ((carry + nextValue left + nextValue right) / 10) with
    | nil =>
      -- the one digit that is written is the sum
      rw [getLast?_singleton]
      intro hz
      rw [hrs, Option.some.inj hz] at hv
      have hs : 0 = lowValue left + lowValue right + carry := hv
      exact hd ⟨eq_nil_of_lowValue hl htl (by omega), eq_nil_of_lowValue hr htr (by omega), by omega⟩
    | cons d tl =>
      have hp : ps ≠ 0 := by
        rintro rfl
        cases hrs
      rw [getLast?_cons_cons, ← hrs]
      refine ih hl.listTail hr.listTail (by omega) ?_ ?_ (getLast?_tail_ne htl) (getLast?_tail_ne htr)
      · rw [length_tail]
        omega
      · rw [length_tail]
        omega

/-- The addition of digits adds values and leaves no leading zeros. -/
theorem addMagnitude_spec (hl : Digits left) (hr : Digits right) (hsl : stripZeros left = left) (hsr : stripZeros right = right) :
    value 0 (addMagnitude left right) = value 0 left + value 0 right ∧
      stripZeros (addMagnitude left right) = addMagnitude left right := by
  unfold addMagnitude
  by_cases hzl : isZeroValue left = true
  · rw [if_pos hzl, (isZeroValue_iff hl).mp hzl]
    exact ⟨(zero_add _).symm, hsr⟩
  by_cases hzr : isZeroValue right = true
  · rw [if_neg hzl, if_pos hzr, (isZeroValue_iff hr).mp hzr]
    exact ⟨rfl, hsl⟩
  rw [if_neg hzl, if_neg hzr]
  have hlf : left.reverse.length < max left.length right.length + 1 := by
    rw [length_reverse]
    omega
  have hrg : right.reverse.length < max left.length right.length + 1 := by
    rw [length_reverse]
    omega
  have hv := lowValue_addLoop hl.reverse hr.reverse (zero_le 1) hlf hrg
  have ht := getLast?_addLoop hl.reverse hr.reverse (zero_le 1) hlf hrg
    (by rw [getLast?_reverse]; exact head?_ne_of_stripZeros hsl hzl)
    (by rw [getLast?_reverse]; exact head?_ne_of_stripZeros hsr hzr)
  rw [← value_reverse, lowValue_reverse, lowValue_reverse, add_zero] at hv
  rw [← head?_reverse] at ht
  have hne : (addLoop (max left.length right.length + 1) left.reverse right.reverse 0).reverse ≠ [] := by
    intro h0
    rw [h0] at hv
    have hp := value_ne_zero hl hzl
    have hn : value 0 [] = 0 := rfl
    omega
  dsimp only
  rw [if_neg hne]
  exact ⟨hv, stripZeros_eq_self ht⟩

/-! ## Differences -/

/-- Where the right number with the borrow is not greater, the loop writes the difference. -/
theorem lowValue_subtractLoop (hl : Digits left) (hr : Digits right) (borrow : Bool)
    (hle : lowValue right + (if borrow then 1 else 0) ≤ lowValue left) :
    lowValue (subtractLoop left right borrow) + lowValue right + (if borrow then 1 else 0) = lowValue left := by
  induction left generalizing right borrow with
  | nil =>
    simp only [subtractLoop, lowValue] at hle ⊢
    omega
  | cons l left ih =>
    have hlv := digitValue_lt hl.head
    have hrv := nextValue_lt hr
    have hc : lowValue (l :: left) = digitValue l + 10 * lowValue left := rfl
    rw [lowValue_eq right, hc] at hle
    rw [lowValue_eq right, hc]
    generalize hw : (if borrow = true then 1 else 0 : Nat) = b at hle ⊢
    have hb : b ≤ 1 := by
      rw [← hw]
      split <;> omega
    have hi : ((if borrow = true then 1 else 0 : Int)) = (b : Int) := by
      rw [← hw]
      split <;> rfl
    simp only [subtractLoop, hi]
    split
    · next hn =>
      have hrs := ih hl.tail hr.listTail true (by simp only [if_true]; omega)
      rw [lowValue, digitValue_digit (by omega)]
      simp only [if_true] at hrs
      omega
    · next hp =>
      have hrs := ih hl.tail hr.listTail false (by simp only [false_eq_true, if_false]; omega)
      rw [lowValue, digitValue_digit (by omega)]
      simp only [false_eq_true, if_false] at hrs
      omega

/-- The subtraction of digits subtracts values and leaves no leading zeros. -/
theorem subtractMagnitude_spec (hl : Digits left) (hr : Digits right) (hsl : stripZeros left = left) (hsr : stripZeros right = right) :
    value 0 (subtractMagnitude left right) = value 0 left - value 0 right ∧
      stripZeros (subtractMagnitude left right) = subtractMagnitude left right := by
  unfold subtractMagnitude
  rw [compareMagnitude_eq hl hr hsl hsr]
  split
  · next hlt => exact ⟨(Nat.sub_eq_zero_of_le (compare_lt_iff_lt.mp hlt).le).symm, rfl⟩
  · next heq => exact ⟨(Nat.sub_eq_zero_of_le (compare_eq_iff_eq.mp heq).le).symm, rfl⟩
  · next hgt =>
    have hlt := compare_gt_iff_gt.mp hgt
    split
    · next hzr => exact ⟨by rw [(isZeroValue_iff hr).mp hzr, Nat.sub_zero], hsl⟩
    · have hv := lowValue_subtractLoop hl.reverse hr.reverse false (by
        rw [lowValue_reverse, lowValue_reverse]
        simp only [false_eq_true, if_false]
        omega)
      rw [lowValue_reverse, lowValue_reverse] at hv
      simp only [false_eq_true, if_false] at hv
      refine ⟨?_, stripZeros_stripZeros _⟩
      rw [value_stripZeros, value_reverse]
      omega

/-! ## Products -/

/-- A carry that fits is added. -/
theorem lowValue_carryLoop (h : Digits res) (hf : lowValue res + carry < 10 ^ res.length) :
    lowValue (carryLoop carry res) = lowValue res + carry := by
  induction res generalizing carry with
  | nil =>
    simp only [carryLoop, lowValue, length_nil, pow_zero] at hf ⊢
    omega
  | cons e res ih =>
    rw [carryLoop]
    split
    · next h0 =>
      rw [h0]
      rfl
    · rw [length_cons, pow_succ] at hf
      simp only [lowValue] at hf ⊢
      rw [digitValue_digit (mod_lt _ (by decide)), ih h.tail (by omega)]
      omega

/-- A row that fits is added. -/
theorem lowValue_multiplyRow (d : Nat) (h : Digits res) (hf : lowValue res + d * lowValue right + carry < 10 ^ res.length) :
    lowValue (multiplyRow d right carry res) = lowValue res + d * lowValue right + carry := by
  induction right generalizing carry res with
  | nil =>
    rw [multiplyRow]
    simp only [lowValue, mul_zero, add_zero] at hf ⊢
    exact lowValue_carryLoop h hf
  | cons r right ih =>
    cases res with
    | nil =>
      simp only [multiplyRow, lowValue, length_nil, pow_zero] at hf ⊢
      omega
    | cons e res =>
      have he : d * (digitValue r + 10 * lowValue right) = d * digitValue r + 10 * (d * lowValue right) := by ring
      rw [length_cons, pow_succ] at hf
      simp only [multiplyRow, lowValue, he] at hf ⊢
      rw [digitValue_digit (mod_lt _ (by decide)), ih h.tail (by omega)]
      omega

/-- Carrying stays within the result. -/
theorem length_carryLoop (carry : Nat) (res : Bytes) : (carryLoop carry res).length = res.length := by
  induction res generalizing carry with
  | nil => rfl
  | cons e res ih =>
    rw [carryLoop]
    split
    · rfl
    · rw [length_cons, length_cons, ih]

/-- A row stays within the result. -/
theorem length_multiplyRow (d : Nat) (right : Bytes) (carry : Nat) (res : Bytes) :
    (multiplyRow d right carry res).length = res.length := by
  induction right generalizing carry res with
  | nil => exact length_carryLoop carry res
  | cons r right ih =>
    cases res with
    | nil => rfl
    | cons e res => rw [multiplyRow, length_cons, length_cons, ih]

/-- A product that fits is added. -/
theorem lowValue_multiplyLoop (h : Digits res) (hf : lowValue res + lowValue left * lowValue right < 10 ^ res.length) :
    lowValue (multiplyLoop left right res) = lowValue res + lowValue left * lowValue right := by
  induction left generalizing res with
  | nil =>
    rw [multiplyLoop, lowValue]
    omega
  | cons l left ih =>
    have he : lowValue (l :: left) * lowValue right = digitValue l * lowValue right + 10 * (lowValue left * lowValue right) := by
      rw [lowValue]
      ring
    rw [he] at hf ⊢
    have hw := @lowValue_multiplyRow right 0 res (digitValue l) h (by omega)
    have hl := length_multiplyRow (digitValue l) right 0 res
    have hds := digits_multiplyRow (digitValue l) right h 0
    rw [multiplyLoop]
    cases hr : multiplyRow (digitValue l) right 0 res with
    | nil =>
      rw [hr] at hw hl
      rw [← hl] at hf
      simp only [lowValue, length_nil, pow_zero] at hw hf ⊢
      omega
    | cons d tl =>
      rw [hr] at hw hl hds
      rw [← hl, length_cons, pow_succ] at hf
      simp only [lowValue] at hw ⊢
      -- the lowest digit of the row is final, the rest takes the other rows
      rw [ih hds.tail (by omega)]
      omega

theorem lowValue_zeros (n : Nat) : lowValue (replicate n 0x30) = 0 := by
  induction n with
  | zero => rfl
  | succ n ih =>
    rw [replicate_succ, lowValue, ih]
    rfl

/-- The multiplication of digits multiplies values and leaves no leading zeros. -/
theorem multiplyMagnitude_spec (hl : Digits left) (hr : Digits right) :
    value 0 (multiplyMagnitude left right) = value 0 left * value 0 right ∧
      stripZeros (multiplyMagnitude left right) = multiplyMagnitude left right := by
  unfold multiplyMagnitude
  split
  · next hze =>
    refine ⟨?_, rfl⟩
    rcases hze with hz | hz
    · rw [(isZeroValue_iff hl).mp hz, zero_mul]
      rfl
    · rw [(isZeroValue_iff hr).mp hz, mul_zero]
      rfl
  · have hf : value 0 left * value 0 right < 10 ^ (left.length + right.length) := by
      rw [pow_add]
      exact mul_lt_mul'' (value_lt hl) (value_lt hr)
    have hzr : Digits (replicate (left.length + right.length) 0x30) := digits_zeros _
    have hv := @lowValue_multiplyLoop left.reverse right.reverse _ hzr (by
      rw [lowValue_zeros, lowValue_reverse, lowValue_reverse, length_replicate, zero_add]
      exact hf)
    rw [lowValue_zeros, lowValue_reverse, lowValue_reverse, zero_add] at hv
    exact ⟨by rw [value_stripZeros, value_reverse, hv], stripZeros_stripZeros _⟩

end Libft.CPPClass
