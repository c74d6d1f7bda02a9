import Libft.CPPClass.Magnitudes
import Mathlib.Data.Int.Order.Basic
import Mathlib.Tactic.Linarith

/-!
# The arithmetic of big numbers

Numbers that are built by assigning, appending, reducing, clearing and calculating have no zeros in front of their digits. On such
numbers `operator+`, `operator-` and `operator*` give the integers they stand for, `operator/` the quotient truncated toward zero and
`operator%` what remains of the division.

The long division keeps, digit by digit, a quotient and a remainder of the digits read so far; the candidates for the next digit are
tried from one upwards, and the last whose product does not exceed the remainder is taken.
-/

namespace Libft.CPPClass.BigNumber

open Decimal Nat Int

/-- A number with a sign. -/
def signed (negative : Bool) (magnitude : Nat) : Int := if negative then -(magnitude : Int) else magnitude

/-- The number that the digits spell. -/
def magnitude (n : BigNumber) : Nat := value 0 n.digits

/-- The integer that a big number stands for. -/
def toInt (n : BigNumber) : Int := signed n.negative n.magnitude

/-- No zeros stand in front, but for zero itself. -/
def Stripped (n : BigNumber) : Prop := stripZeros n.digits = n.digits

/-- Numbers that are built by the operations. -/
inductive Built : BigNumber → Prop
  | initialise : Built {}
  | assign {n : BigNumber} (number : Bytes) (h : Built n) : Built (n.assign number)
  | appendDigit {n : BigNumber} (d : UInt8) (h : Built n) : Built (n.appendDigit d)
  | append {n : BigNumber} (ds : Bytes) (h : Built n) : Built (n.append ds)
  | appendUnsigned {n : BigNumber} (value : UInt64) (h : Built n) : Built (n.appendUnsigned value)
  | trimLeadingZeros {n : BigNumber} (h : Built n) : Built n.trimLeadingZeros
  | reduceTo {n : BigNumber} (newSize : Nat) (h : Built n) : Built (n.reduceTo newSize)
  | clear {n : BigNumber} (h : Built n) : Built n.clear
  | add {a b : BigNumber} (ha : Built a) (hb : Built b) : Built (a.add b)
  | subtract {a b : BigNumber} (ha : Built a) (hb : Built b) : Built (a.subtract b)
  | multiply {a b : BigNumber} (ha : Built a) (hb : Built b) : Built (a.multiply b)
  | divide {a b q : BigNumber} (ha : Built a) (hb : Built b) (h : a.divide b = .ok q) : Built q
  | modulo {a b r : BigNumber} (ha : Built a) (hb : Built b) (h : a.modulo b = .ok r) : Built r

/-- A number as it is to be stored and reported: no zeros in front, and negative if and only if it is below zero. -/
structure Normal (n : BigNumber) : Prop where
  stripped : n.Stripped
  sign : n.isNegative = true ↔ n.toInt < 0

/-- The operations on two numbers are those of the integers. -/
structure Exact (a b : BigNumber) : Prop where
  add : (a.add b).toInt = a.toInt + b.toInt
  subtract : (a.subtract b).toInt = a.toInt - b.toInt
  multiply : (a.multiply b).toInt = a.toInt * b.toInt
  divide : b.toInt ≠ 0 → ∃ q r, a.divide b = .ok q ∧ a.modulo b = .ok r ∧ q.toInt = a.toInt.tdiv b.toInt ∧
    a.toInt = q.toInt * b.toInt + r.toInt ∧ |r.toInt| < |b.toInt| ∧ (r.toInt = 0 ∨ r.toInt.sign = a.toInt.sign)

/-! ## Signs -/

variable {a b n : BigNumber} {ds : Bytes} {other rem : BigNumber}

theorem isZeroValue_iff_magnitude (n : BigNumber) : isZeroValue n.digits = true ↔ n.magnitude = 0 := isZeroValue_iff n.isDigits

/-- The value of digits with a sign. -/
theorem toInt_ofMagnitude (h : Digits ds) (negative : Bool) :
    (ofMagnitude ds h negative).toInt = signed negative (value 0 ds) := by
  show signed (if isZeroValue ds then false else negative) (value 0 ds) = _
  split
  · next hz =>
    rw [(isZeroValue_iff h).mp hz]
    cases negative <;> rfl
  · rfl

/-- A number is zero when its magnitude is. -/
theorem toInt_eq_zero_iff : n.toInt = 0 ↔ n.magnitude = 0 := by
  unfold toInt signed
  split <;> omega

theorem isZeroValue_iff_toInt (n : BigNumber) : isZeroValue n.digits = true ↔ n.toInt = 0 :=
  (isZeroValue_iff_magnitude n).trans toInt_eq_zero_iff.symm

/-- Comparing digits compares magnitudes. -/
theorem compareMagnitude_magnitude (ha : a.Stripped) (hb : b.Stripped) :
    compareMagnitude a.digits b.digits = compare a.magnitude b.magnitude :=
  compareMagnitude_eq a.isDigits b.isDigits ha hb

/-- A negative number is below zero: zero has no sign. -/
theorem isNegative_iff (n : BigNumber) : n.isNegative = true ↔ n.toInt < 0 := by
  unfold isNegative
  split
  · next hz => simp [(isZeroValue_iff_toInt n).mp hz]
  · next hz =>
    have hp : n.magnitude ≠ 0 := fun h0 => hz ((isZeroValue_iff_magnitude n).mpr h0)
    unfold toInt signed
    cases n.negative
    · simp
    · simp only [if_true, true_iff]
      omega

/-- Turning the sign of the right operand negates it. -/
theorem signed_rightNegative (b : BigNumber) : signed (if isZeroValue b.digits then false else !b.negative) b.magnitude = -b.toInt := by
  split
  · next hz =>
    have h0 := (isZeroValue_iff_magnitude b).mp hz
    rw [toInt_eq_zero_iff.mpr h0, h0]
    rfl
  · unfold toInt signed
    cases b.negative <;> simp

/-- Leading zeros do not count. -/
theorem toInt_trimLeadingZeros (n : BigNumber) : n.trimLeadingZeros.toInt = n.toInt :=
  congrArg (signed n.negative) (value_stripZeros n.digits)

/-! ## Sums, differences and products -/

/-- The common part of addition and subtraction, on operands with given signs. -/
theorem addSigned_spec (ha : a.Stripped) (hb : b.Stripped) (s t : Bool) :
    (a.addSigned b s t).toInt = signed s a.magnitude + signed t b.magnitude ∧ (a.addSigned b s t).Stripped := by
  unfold addSigned
  rw [compareMagnitude_magnitude ha hb]
  split
  · next hst =>
    obtain ⟨hv, hs⟩ := addMagnitude_spec a.isDigits b.isDigits ha hb
    refine ⟨?_, hs⟩
    rw [toInt_ofMagnitude, hv, hst]
    unfold signed magnitude
    split <;> omega
  · next hst =>
    cases s <;> cases t <;> simp only [reduceCtorEq, not_true_eq_false] at hst
    all_goals
      split
      · next heq =>
        have h := compare_eq_iff_eq.mp heq
        refine ⟨?_, rfl⟩
        simp only [signed, h]
        simp [toInt, signed, magnitude, value]
      · next hgt =>
        have h := compare_gt_iff_gt.mp hgt
        obtain ⟨hv, hs⟩ := subtractMagnitude_spec a.isDigits b.isDigits ha hb
        refine ⟨?_, hs⟩
        rw [toInt_ofMagnitude, hv]
        simp only [signed, magnitude, Bool.false_eq_true, if_true, if_false] at h ⊢
        omega
      · next hlt =>
        have h := compare_lt_iff_lt.mp hlt
        obtain ⟨hv, hs⟩ := subtractMagnitude_spec b.isDigits a.isDigits hb ha
        refine ⟨?_, hs⟩
        rw [toInt_ofMagnitude, hv]
        simp only [signed, magnitude, Bool.false_eq_true, if_true, if_false] at h ⊢
        omega

/-- `operator+` adds. -/
theorem toInt_add (ha : a.Stripped) (hb : b.Stripped) : (a.add b).toInt = a.toInt + b.toInt :=
  (addSigned_spec ha hb a.negative b.negative).1

/-- `operator-` subtracts. -/
theorem toInt_subtract (ha : a.Stripped) (hb : b.Stripped) : (a.subtract b).toInt = a.toInt - b.toInt := by
  rw [subtract, (addSigned_spec ha hb _ _).1, signed_rightNegative]
  exact (Int.sub_eq_add_neg).symm

/-- `operator*` multiplies magnitudes. -/
theorem magnitude_multiply (a b : BigNumber) : (a.multiply b).magnitude = a.magnitude * b.magnitude :=
  (multiplyMagnitude_spec a.isDigits b.isDigits).1

theorem stripped_multiply (a b : BigNumber) : (a.multiply b).Stripped := (multiplyMagnitude_spec a.isDigits b.isDigits).2

/-- `operator*` multiplies. -/
theorem toInt_multiply (a b : BigNumber) : (a.multiply b).toInt = a.toInt * b.toInt := by
  rw [multiply, toInt_ofMagnitude, (multiplyMagnitude_spec a.isDigits b.isDigits).1]
  unfold toInt signed magnitude
  cases a.negative <;> cases b.negative <;> simp

/-! ## Digits that are appended -/

theorem magnitude_zero : ({} : BigNumber).magnitude = 0 := rfl

/-- A digit that is appended to a number without zeros in front. -/
theorem appendDigit_spec (h : n.Stripped) {d : UInt8} (hd : isDigit d = true) :
    (n.appendDigit d).magnitude = 10 * n.magnitude + digitValue d ∧ (n.appendDigit d).Stripped := by
  unfold appendDigit
  rw [dif_pos hd]
  constructor
  · show value 0 ((if n.digits = [0x30] then [] else n.digits) ++ [d]) = 10 * value 0 n.digits + digitValue d
    have hone : ∀ acc, value acc [d] = acc * 10 + digitValue d := fun _ => rfl
    rw [value_append, hone]
    split
    · next hz =>
      rw [hz]
      rfl
    · omega
  · show stripZeros ((if n.digits = [0x30] then [] else n.digits) ++ [d]) = (if n.digits = [0x30] then [] else n.digits) ++ [d]
    split
    · exact stripZeros_singleton d
    · next hz =>
      rw [Stripped] at h
      rcases hds : n.digits with _ | ⟨c, _ | ⟨e, t⟩⟩
      · exact stripZeros_singleton d
      · exact stripZeros_cons (fun hc => hz (by rw [hds, hc])) [d]
      · rw [hds] at h
        exact stripZeros_cons (ne_zero_of_stripZeros h) (e :: t ++ [d])

/-- Appending digits leaves no leading zeros. -/
theorem stripped_append (h : n.Stripped) (ds : Bytes) : (n.append ds).Stripped := by
  induction ds generalizing n with
  | nil => exact h
  | cons d ds ih =>
    by_cases hd : isDigit d = true
    · exact ih (appendDigit_spec h hd).2
    · have hs : n.appendDigit d = n := dif_neg hd
      show ((n.appendDigit d).append ds).Stripped
      rw [hs]
      exact ih h

/-- Cutting digits off leaves no leading zeros. -/
theorem stripped_reduceTo (h : n.Stripped) (newSize : Nat) : (n.reduceTo newSize).Stripped := by
  unfold reduceTo
  split
  · exact h
  · rw [Stripped] at h ⊢
    show stripZeros (n.digits.take newSize) = n.digits.take newSize
    rcases newSize with _ | _ | newSize
    · rfl
    · cases n.digits with
      | nil => rfl
      | cons c t => exact stripZeros_singleton c
    · rcases hds : n.digits with _ | ⟨c, _ | ⟨e, t⟩⟩
      · rfl
      · exact stripZeros_singleton c
      · rw [hds] at h
        exact stripZeros_cons (ne_zero_of_stripZeros h) (e :: t.take newSize)

/-! ## Long division -/

/-- The candidates: the best so far is one below the next, its product does not exceed the remainder, and neither does ten times the
divisor reach it. What the loop ends with is the digit of the quotient. -/
theorem candidateLoop_spec (hr : rem.Stripped)
    (ht : rem.magnitude < 10 * other.magnitude) {left c : Nat} (hl : c + left = 10)
    {best : Nat × BigNumber} (hb : best.1 + 1 = c) (hle : best.1 * other.magnitude ≤ rem.magnitude)
    (hpr : 0 < best.1 → best.2.magnitude = best.1 * other.magnitude ∧ best.2.Stripped) :
    let r := candidateLoop other rem left c best
    r.1 ≤ 9 ∧ r.1 * other.magnitude ≤ rem.magnitude ∧ rem.magnitude < (r.1 + 1) * other.magnitude ∧
      (0 < r.1 → r.2.magnitude = r.1 * other.magnitude ∧ r.2.Stripped) := by
  induction left generalizing c best with
  | zero =>
    have hni : best.1 = 9 := by omega
    refine ⟨hni.le, hle, ?_, hpr⟩
    show rem.magnitude < (best.1 + 1) * other.magnitude
    rw [hni]
    exact ht
  | succ left ih =>
    have hd : isDigit (digit c) = true := isDigit_digit (by omega)
    have ho : (({} : BigNumber).appendDigit (digit c)).magnitude = c := by
      rw [(appendDigit_spec (n := {}) rfl hd).1, digitValue_digit (by omega), magnitude_zero]
      omega
    generalize hp : other.multiply (({} : BigNumber).appendDigit (digit c)) = product
    have hmg : product.magnitude = c * other.magnitude := by
      rw [← hp, magnitude_multiply, ho, mul_comm]
    have hs : product.Stripped := hp ▸ stripped_multiply _ _
    simp only [candidateLoop, hp, compareMagnitude_magnitude hs hr, hmg]
    split
    · next hlt =>
      exact ih (by omega) rfl (compare_lt_iff_lt.mp hlt).le fun _ => ⟨hmg, hs⟩
    · next heq =>
      have h := compare_eq_iff_eq.mp heq
      refine ⟨by omega, h.le, ?_, fun _ => ⟨hmg, hs⟩⟩
      show rem.magnitude < (c + 1) * other.magnitude
      rw [add_mul, h]
      omega
    · next hgt =>
      have h := compare_gt_iff_gt.mp hgt
      rw [← hb] at h
      exact ⟨by omega, hle, h, hpr⟩

/-- The difference of magnitudes is cut off at zero. -/
theorem magnitude_difference (ha : a.Stripped) (hb : b.Stripped) : (a.difference b).magnitude = a.magnitude - b.magnitude :=
  (subtractMagnitude_spec a.isDigits b.isDigits ha hb).1

theorem stripped_difference (ha : a.Stripped) (hb : b.Stripped) : (a.difference b).Stripped :=
  (subtractMagnitude_spec a.isDigits b.isDigits ha hb).2

theorem stripped_trimLeadingZeros (n : BigNumber) : n.trimLeadingZeros.Stripped := stripZeros_stripZeros n.digits

/-- A turn of the long division: a remainder below ten times the divisor is the digit of the quotient times the divisor and what
remains. -/
theorem divideRemainder_spec (ho : other.Stripped) (hm : rem.Stripped) (ht : rem.magnitude < 10 * other.magnitude) :
    let r := divideRemainder other rem
    r.1 ≤ 9 ∧ r.2.Stripped ∧ r.2.magnitude < other.magnitude ∧
      rem.magnitude = r.1 * other.magnitude + r.2.magnitude := by
  unfold divideRemainder
  rw [compareMagnitude_magnitude hm ho]
  split
  · next h => exact ⟨zero_le _, hm, compare_lt_iff_lt.mp h, by rw [zero_mul, zero_add]⟩
  · have hz : 0 * other.magnitude ≤ rem.magnitude := by simp
    obtain ⟨hni, hle, ha, hp⟩ := @candidateLoop_spec other rem hm ht 9 1 rfl (0, {}) rfl hz (fun h => absurd h (lt_irrefl 0))
    dsimp only
    generalize candidateLoop other rem 9 1 (0, {}) = best at hni hle ha hp ⊢
    split
    · next hs =>
      obtain ⟨hp, hps⟩ := hp hs
      have hr := magnitude_difference hm hps
      rw [add_mul, one_mul] at ha
      rw [hp] at hr
      refine ⟨hni, stripped_difference hm hps, ?_, ?_⟩
      · show (rem.difference best.2).magnitude < other.magnitude
        omega
      · show rem.magnitude = best.1 * other.magnitude + (rem.difference best.2).magnitude
        omega
    · next hz =>
      have h0 : best.1 = 0 := by omega
      rw [h0, zero_add, one_mul] at ha
      exact ⟨zero_le _, hm, ha, by rw [zero_mul, zero_add]⟩

/-- The long division: of the digits read so far there is a quotient and a remainder below the divisor, and so there is at the end. -/
theorem magnitude_divideLoop (ho : other.Stripped) (hds : Digits ds)
    {res : BigNumber} (hm : rem.Stripped) (hres : res.Stripped)
    (hlt : rem.magnitude < other.magnitude) :
    (divideLoop other ds rem res).magnitude =
      value (res.magnitude * other.magnitude + rem.magnitude) ds / other.magnitude := by
  induction ds generalizing rem res with
  | nil =>
    show res.magnitude = (res.magnitude * other.magnitude + rem.magnitude) / other.magnitude
    rw [mul_comm, mul_add_div (by omega), div_eq_of_lt hlt, add_zero]
  | cons d ds ih =>
    obtain ⟨hv, -⟩ := appendDigit_spec hm hds.head
    have hd := digitValue_lt hds.head
    have hmg : (rem.appendDigit d).trimLeadingZeros.magnitude = 10 * rem.magnitude + digitValue d := by
      rw [← hv]
      exact value_stripZeros _
    obtain ⟨hni, hs, hb, ht⟩ := divideRemainder_spec ho (stripped_trimLeadingZeros (rem.appendDigit d)) (by omega)
    rw [divideLoop]
    generalize divideRemainder other (rem.appendDigit d).trimLeadingZeros = step at hni hs hb ht ⊢
    obtain ⟨hq, hqs⟩ := appendDigit_spec hres (isDigit_digit (by omega : step.1 < 10))
    rw [digitValue_digit (by omega)] at hq
    refine (ih hds.tail hs hqs hb).trans ?_
    have hr : (res.appendDigit (digit step.1)).magnitude * other.magnitude + step.2.magnitude =
        (res.magnitude * other.magnitude + rem.magnitude) * 10 + digitValue d := by
      rw [hq, add_mul]
      linarith
    rw [hr]
    rfl

/-! ## Quotients and remainders -/

/-- Division by zero is an error. -/
theorem divide_eq_error (a : BigNumber) (h : b.toInt = 0) : a.divide b = .error .divideByZero :=
  if_pos ((isZeroValue_iff_toInt b).mpr h)

/-- `operator/` divides towards zero. -/
theorem divide_spec (ha : a.Stripped) (hb : b.Stripped) (hz : b.toInt ≠ 0) :
    ∃ q, a.divide b = .ok q ∧ q.Stripped ∧ q.toInt = a.toInt.tdiv b.toInt := by
  have hbz : b.magnitude ≠ 0 := fun h0 => hz (toInt_eq_zero_iff.mpr h0)
  have hd : ¬isZeroValue b.digits = true := fun h0 => hz ((isZeroValue_iff_toInt b).mp h0)
  have ht : signed (a.negative != b.negative) (a.magnitude / b.magnitude) = a.toInt.tdiv b.toInt := by
    unfold toInt signed
    cases a.negative <;> cases b.negative <;> simp
  have hs : a.magnitude / b.magnitude = 0 → (({} : BigNumber)).toInt = a.toInt.tdiv b.toInt := by
    intro h0
    rw [← ht, h0]
    cases a.negative <;> cases b.negative <;> rfl
  unfold divide
  rw [if_neg hd, compareMagnitude_magnitude ha hb]
  split
  · next h0 =>
    refine ⟨{}, rfl, rfl, hs ?_⟩
    rw [(isZeroValue_iff_magnitude a).mp h0, Nat.zero_div]
  · split
    · next hlt => exact ⟨{}, rfl, rfl, hs (div_eq_of_lt (compare_lt_iff_lt.mp hlt))⟩
    · next heq =>
      have ho : a.magnitude / b.magnitude = 1 := by
        rw [compare_eq_iff_eq.mp heq]
        exact Nat.div_self (Nat.pos_of_ne_zero hbz)
      refine ⟨_, rfl, rfl, ?_⟩
      rw [← ht, ho]
      rfl
    · next hgt =>
      have hl := @magnitude_divideLoop a.digits b {} hb a.isDigits {} rfl rfl (pos_of_ne_zero hbz)
      refine ⟨_, rfl, stripZeros_stripZeros _, ?_⟩
      have hq : value 0 (divideLoop b a.digits {} {}).trimLeadingZeros.digits = a.magnitude / b.magnitude := by
        refine (value_stripZeros _).trans (hl.trans ?_)
        rw [magnitude_zero, zero_mul]
        rfl
      rw [toInt_ofMagnitude, hq]
      exact ht

/-- What `operator%` gives is what the truncated division leaves. -/
theorem modulo_spec (ha : a.Stripped) (hb : b.Stripped) (hz : b.toInt ≠ 0) :
    ∃ r, a.modulo b = .ok r ∧ r.Stripped ∧ r.toInt = a.toInt.tmod b.toInt := by
  obtain ⟨q, hq, -, hqt⟩ := divide_spec ha hb hz
  generalize hr : (a.subtract (q.multiply b)).trimLeadingZeros = result
  have hs : result.Stripped := hr ▸ stripped_trimLeadingZeros (a.subtract (q.multiply b))
  refine ⟨ofMagnitude result.digits result.isDigits result.negative, by rw [modulo, hq, ← hr]; rfl, hs, ?_⟩
  have hd : (a.subtract (q.multiply b)).toInt = a.toInt.tmod b.toInt := by
    rw [toInt_subtract ha (stripped_multiply q b), toInt_multiply, hqt, tmod_def, mul_comm]
  rw [toInt_ofMagnitude, ← hd, ← toInt_trimLeadingZeros, hr]
  rfl

/-- Assigning a text leaves no leading zeros. -/
theorem stripped_assign (h : n.Stripped) (num : Bytes) : (n.assign num).Stripped := by
  unfold assign
  dsimp only
  split_ifs <;> first | exact h | exact rfl | exact stripZeros_stripZeros _

/-- Every number that is built is stored without zeros in front. -/
theorem Built.stripped (h : Built n) : n.Stripped := by
  induction h with
  | initialise => rfl
  | assign nm _ ih => exact stripped_assign ih nm
  | appendDigit d _ ih => exact stripped_append ih [d]
  | append ds _ ih => exact stripped_append ih ds
  | appendUnsigned v _ ih => exact stripped_append ih _
  | @trimLeadingZeros n _ _ => exact stripped_trimLeadingZeros n
  | reduceTo ns _ ih => exact stripped_reduceTo ih ns
  | clear => rfl
  | add _ _ iha ihb | subtract _ _ iha ihb => exact (addSigned_spec iha ihb _ _).2
  | @multiply a b _ _ _ _ => exact stripped_multiply a b
  | @divide a b q _ _ h iha ihb =>
    by_cases hz : b.toInt = 0
    · cases (divide_eq_error a hz).symm.trans h
    · obtain ⟨q', hq', hs, -⟩ := divide_spec iha ihb hz
      cases hq'.symm.trans h
      exact hs
  | @modulo a b r _ _ h _ _ =>
    cases h
    exact stripped_trimLeadingZeros _

/-- Numbers that are built are normal, and so are the results of the operations on them, which are those of the integers. -/
theorem exact_of_built (ha : Built a) (hb : Built b) : Exact a b ∧ ∀ n, Built n → n.Normal := by
  have hsa := ha.stripped
  have hsb := hb.stripped
  refine ⟨⟨toInt_add hsa hsb, toInt_subtract hsa hsb, toInt_multiply a b, fun hz => ?_⟩, fun n hn => ⟨hn.stripped, isNegative_iff n⟩⟩
  obtain ⟨q, hq, -, hqt⟩ := divide_spec hsa hsb hz
  obtain ⟨r, hr, -, hm⟩ := modulo_spec hsa hsb hz
  refine ⟨q, r, hq, hr, hqt, ?_, ?_, ?_⟩
  · rw [hqt, hm]
    exact (tdiv_mul_add_tmod _ _).symm
  · rw [hm, abs_eq_natAbs, abs_eq_natAbs, natAbs_tmod]
    exact_mod_cast mod_lt _ (natAbs_pos.mpr hz)
  · rw [hm, ← sign_eq_zero_iff_zero, sign_tmod]
    split
    · exact Or.inl rfl
    · exact Or.inr rfl

/-- The number that a text is assigned to. -/
def ofText (text : Bytes) : BigNumber := ({} : BigNumber).assign text

/-- A quotient and a remainder of a negative number with many digits. -/
theorem exact_of_built_quotient :
    Exact (ofText (ascii "-1000000000000000000007")) ((ofText (ascii "-42")).append (ascii "9")) ∧
      (∀ n, Built n → n.Normal) ∧
      ((ofText (ascii "-1000000000000000000007")).divide ((ofText (ascii "-42")).append (ascii "9"))).map toInt =
        .ok 2331002331002331002 ∧
      ((ofText (ascii "-1000000000000000000007")).modulo ((ofText (ascii "-42")).append (ascii "9"))).map toInt = .ok (-149) := by
  have h := exact_of_built (a := ofText (ascii "-1000000000000000000007")) (b := (ofText (ascii "-42")).append (ascii "9"))
    (.assign _ .initialise) (.append _ (.assign _ .initialise))
  exact ⟨h.1, h.2, by decide +kernel, by decide +kernel⟩

end Libft.CPPClass.BigNumber
