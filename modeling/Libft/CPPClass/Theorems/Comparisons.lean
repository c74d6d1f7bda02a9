import Libft.CPPClass.Theorems.Arithmetic

/-!
# The comparisons of big numbers

On a thread whose last operation succeeded the five comparisons are those of the integers. An error that was left there makes
`operator<` and `operator==` answer false; the second half of `operator<=` and `operator>=` comes after the error was cleared, and is
right again.
-/

namespace Libft.CPPClass.BigNumber

open Decimal

variable {a b : BigNumber} {err : LastError} {answer : Bool} {p : Prop}

/-- Numbers that are not zero and have no zeros in front are spelled in one way. -/
theorem digits_eq_of_magnitude (ha : a.Stripped) (hb : b.Stripped) (hne : a.magnitude ≠ 0) (h : a.magnitude = b.magnitude) :
    a.digits = b.digits := by
  have hza : ¬isZeroValue a.digits = true := fun h0 => hne ((isZeroValue_iff_magnitude a).mp h0)
  have hzb : ¬isZeroValue b.digits = true := fun h0 => hne (h.trans ((isZeroValue_iff_magnitude b).mp h0))
  have hl : a.digits.length = b.digits.length := by
    rcases Nat.lt_trichotomy a.digits.length b.digits.length with hlt | heq | hgt
    · exact absurd h (value_lt_of_length_lt a.isDigits b.isDigits hb hza hlt).ne
    · exact heq
    · exact absurd h (value_lt_of_length_lt b.isDigits a.isDigits ha hzb hgt).ne'
  refine List.le_antisymm (List.not_lt.mp fun hlt => ?_) (List.not_lt.mp fun hlt => ?_)
  · exact absurd h ((lt_iff_value_lt b.isDigits a.isDigits hl.symm).mp hlt).ne'
  · exact absurd h ((lt_iff_value_lt a.isDigits b.isDigits hl).mp hlt).ne

/-! ## Without an error -/

/-- Without an error before it, `operator<` compares values. -/
theorem lessThan_success (ha : a.Stripped) (hb : b.Stripped) : lessThan .success a b = true ↔ a.toInt < b.toInt := by
  simp only [lessThan, compareMagnitude_magnitude ha hb, isZeroValue_iff_magnitude, toInt, signed]
  cases a.negative <;> cases b.negative <;> simp [compare_gt_iff_gt, compare_lt_iff_lt] <;> omega

/-- Without an error before it, `operator==` compares values. -/
theorem equal_success (ha : a.Stripped) (hb : b.Stripped) : equal .success a b = true ↔ a.toInt = b.toInt := by
  have hds : ¬(a.magnitude = 0 ∧ b.magnitude = 0) → (a.digits = b.digits ↔ a.magnitude = b.magnitude) :=
    fun hne => ⟨fun h => congrArg (value 0) h, fun h => digits_eq_of_magnitude ha hb (by omega) h⟩
  simp only [equal, isZeroValue_iff_magnitude, toInt, signed]
  by_cases hbt : a.magnitude = 0 ∧ b.magnitude = 0
  · simp [hbt]
  · simp only [if_neg hbt, hds hbt]
    cases a.negative <;> cases b.negative <;> simp <;> omega

/-! ## With any error -/

/-- A comparison that answers false because of an error is right if its relation does not hold. -/
theorem eq_decide_iff [Decidable p] (hs : err = .success → (answer = true ↔ p))
    (he : err ≠ .success → answer = false) : answer = decide p ↔ err = .success ∨ ¬p := by
  by_cases h : err = .success
  · rw [Bool.eq_iff_iff, hs h]
    simp [h]
  · simp [h, he h]

/-- So is one that then asks for equality, which has no error to read. -/
theorem or_equal_iff {q : Prop} [Decidable q] (hs : err = .success → (answer = true ↔ p))
    (he : err ≠ .success → answer = false) (ha : a.Stripped) (hb : b.Stripped) (hq : q ↔ p ∨ a.toInt = b.toInt)
    (hne : p → a.toInt ≠ b.toInt) : (if answer then true else equal .success a b) = decide q ↔ err = .success ∨ ¬p := by
  by_cases h : err = .success
  · rw [Bool.eq_iff_iff]
    simp [h, hs h, equal_success ha hb, hq, or_iff_not_imp_left]
  · rw [Bool.eq_iff_iff]
    simp [h, he h, equal_success ha hb, hq]
    tauto

/-- After any operations of the thread, each comparison of two numbers is the one of the integers exactly when the operations left no
error or it is to answer false; `operator<=` and `operator>=` are right on equal numbers too. -/
theorem comparisons_iff (history : List Operation) (ha : a.Stripped) (hb : b.Stripped) :
    (equal (lastError history) a b = decide (a.toInt = b.toInt) ↔ lastError history = .success ∨ a.toInt ≠ b.toInt) ∧
      (lessThan (lastError history) a b = decide (a.toInt < b.toInt) ↔ lastError history = .success ∨ ¬a.toInt < b.toInt) ∧
      (lessEqual (lastError history) a b = decide (a.toInt ≤ b.toInt) ↔ lastError history = .success ∨ ¬a.toInt < b.toInt) ∧
      (greater (lastError history) a b = decide (a.toInt > b.toInt) ↔ lastError history = .success ∨ ¬a.toInt > b.toInt) ∧
      (greaterEqual (lastError history) a b = decide (a.toInt ≥ b.toInt) ↔
        lastError history = .success ∨ ¬a.toInt > b.toInt) := by
  generalize lastError history = err
  have hl := lessThan_success ha hb
  have hg := lessThan_success hb ha
  have he := equal_success ha hb
  refine ⟨eq_decide_iff (fun h => h ▸ he) (fun h => if_pos h), eq_decide_iff (fun h => h ▸ hl) (fun h => if_pos h), ?_,
    eq_decide_iff (fun h => h ▸ hg) (fun h => if_pos h), ?_⟩
  · exact or_equal_iff (fun h => h ▸ hl) (fun h => if_pos h) ha hb Int.le_iff_lt_or_eq fun h => h.ne
  · exact or_equal_iff (fun h => h ▸ hg) (fun h => if_pos h) ha hb (Int.le_iff_lt_or_eq.trans (or_congr_right eq_comm)) fun h => h.ne'

/-- A quotient that was assigned clears the error of the division. -/
theorem comparisons_iff_quotient :
    (ofText (ascii "-7")).Stripped ∧ (ofText (ascii "-5")).Stripped ∧
      lessThan (lastError [.divide (ofText (ascii "1")) {} .assigned]) (ofText (ascii "-7")) (ofText (ascii "-5")) =
        decide ((ofText (ascii "-7")).toInt < (ofText (ascii "-5")).toInt) := by
  have ha : (ofText (ascii "-7")).Stripped := (Built.assign _ .initialise).stripped
  have hb : (ofText (ascii "-5")).Stripped := (Built.assign _ .initialise).stripped
  exact ⟨ha, hb, (comparisons_iff _ ha hb).2.1.mpr (Or.inl rfl)⟩

/-- A division by zero whose result is converted to a pointer: after it a number is not equal to itself. -/
theorem equal_after_divide :
    let seven := ofText (ascii "7")
    let err := lastError [.divide seven {} .converted]
    err = .divideByZero ∧ equal err seven seven = false ∧ seven.toInt = 7 := by
  decide

end Libft.CPPClass.BigNumber
