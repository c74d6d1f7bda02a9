import Libft.Lib.Decimal

/-!
# Big numbers

`ft_big_number` (`cpp_class_big_number.cpp`): a number as the text of its decimal digits and a sign, with the schoolbook algorithms for
sums, differences, products, quotients and remainders. The digits stand with the highest first, as they are stored; the loops of the
source run from the last digit to the first, so theirs are functions of the digits in reverse.

Capacities and mutexes are left out, and there is always memory. A sign may stay behind when `reduce_to` takes all digits away; no
number is told negative by it.
-/

namespace Libft.CPPClass

open Decimal Digits List

/-- `ft_big_number`: the digits of a number and its sign. -/
structure BigNumber where
  digits : Bytes := []
  negative : Bool := false
  isDigits : Digits digits := by exact digits_nil
  deriving DecidableEq

/-! ## Digits -/

/-- `is_zero_value`. -/
def isZeroValue (digits : Bytes) : Bool := digits.all (· == 0x30)

/-- The loop of `compare_magnitude` over the digits of two numbers with as many. -/
def compareDigits : Bytes → Bytes → Ordering
  | l :: left, r :: right => if r < l then .gt else if l < r then .lt else compareDigits left right
  | _, _ => .eq

/-- `compare_magnitude`. -/
def compareMagnitude (left right : Bytes) : Ordering :=
  if isZeroValue left ∧ isZeroValue right then .eq
  else if isZeroValue left then .lt
  else if isZeroValue right then .gt
  else if right.length < left.length then .gt
  else if left.length < right.length then .lt
  else compareDigits left right

/-- The digit that a loop reads next, zero if there is none left. -/
def nextValue : Bytes → Nat
  | [] => 0
  | b :: _ => digitValue b

/-- The loop of `add_magnitude`. The number counts the places that are left to write. -/
def addLoop : Nat → Bytes → Bytes → Nat → Bytes
  | 0, _, _, _ => []
  | places + 1, left, right, carry =>
    if left = [] ∧ right = [] ∧ carry = 0 then []
    else
      let sum := carry + nextValue left + nextValue right
      digit (sum % 10) :: addLoop places left.tail right.tail (sum / 10)

/-- `add_magnitude`. -/
def addMagnitude (left right : Bytes) : Bytes :=
  if isZeroValue left then right
  else if isZeroValue right then left
  else
    let used := (addLoop (max left.length right.length + 1) left.reverse right.reverse 0).reverse
    if used = [] then [0x30] else used

/-- The loop of `subtract_magnitude`. -/
def subtractLoop : Bytes → Bytes → Bool → Bytes
  | [], _, _ => []
  | l :: left, right, borrow =>
    let value : Int := digitValue l - (if borrow then 1 else 0) - nextValue right
    if value < 0 then digit (value + 10).toNat :: subtractLoop left right.tail true
    else digit value.toNat :: subtractLoop left right.tail false

/-- `subtract_magnitude`. -/
def subtractMagnitude (left right : Bytes) : Bytes :=
  match compareMagnitude left right with
  | .lt => []
  | .eq => []
  | .gt => if isZeroValue right then left else stripZeros (subtractLoop left.reverse right.reverse false).reverse

/-- The loop of `operator*` that carries on after a row, up to the first digit of the result. -/
def carryLoop : Nat → Bytes → Bytes
  | _, [] => []
  | carry, e :: result =>
    if carry = 0 then e :: result
    else
      let total := digitValue e + carry
      digit (total % 10) :: carryLoop (total / 10) result

/-- The loop of `operator*` over the digits of the right number: a digit of the left number times each of them is added to the
result, from the place of the left digit on. -/
def multiplyRow (left : Nat) : Bytes → Nat → Bytes → Bytes
  | [], carry, result => carryLoop carry result
  | _ :: _, _, [] => []
  | r :: right, carry, e :: result =>
    let total := left * digitValue r + digitValue e + carry
    digit (total % 10) :: multiplyRow left right (total / 10) result

/-- The loop of `operator*` over the digits of the left number. -/
def multiplyLoop : Bytes → Bytes → Bytes → Bytes
  | [], _, result => result
  | l :: left, right, result =>
    match multiplyRow (digitValue l) right 0 result with
    | [] => []
    | d :: result => d :: multiplyLoop left right result

/-- The digits of a product. -/
def multiplyMagnitude (left right : Bytes) : Bytes :=
  if isZeroValue left ∨ isZeroValue right then []
  else stripZeros (multiplyLoop left.reverse right.reverse (replicate (left.length + right.length) 0x30)).reverse

/-! ## What the loops write is digits -/

/-- The addition writes digits. -/
theorem digits_addLoop (ps : Nat) (left right : Bytes) (carry : Nat) : Digits (addLoop ps left right carry) := by
  induction ps generalizing left right carry with
  | zero => exact digits_nil
  | succ ps ih =>
    rw [addLoop]
    split
    · exact digits_nil
    · exact cons (isDigit_digit (Nat.mod_lt _ (by decide))) (ih _ _ _)

variable {left right : Bytes}

theorem digits_addMagnitude (hl : Digits left) (hr : Digits right) : Digits (addMagnitude left right) := by
  unfold addMagnitude
  split
  · exact hr
  · split
    · exact hl
    · dsimp only
      split
      · decide
      · exact (digits_addLoop _ _ _ _).reverse

/-- The next digit of a number is below ten. -/
theorem nextValue_lt {t : Bytes} (h : Digits t) : nextValue t < 10 := by
  cases t with
  | nil => decide
  | cons b t => exact digitValue_lt h.head

/-- The subtraction writes digits. -/
theorem digits_subtractLoop (hl : Digits left) (hr : Digits right) (borrow : Bool) : Digits (subtractLoop left right borrow) := by
  induction left generalizing right borrow with
  | nil => exact digits_nil
  | cons l left ih =>
    have hlv := digitValue_lt hl.head
    have hrv := nextValue_lt hr
    have hw : -10 ≤ (digitValue l : Int) - (if borrow then 1 else 0) - nextValue right := by split <;> omega
    have hh : (digitValue l : Int) - (if borrow then 1 else 0) - nextValue right < 10 := by split <;> omega
    simp only [subtractLoop]
    generalize (digitValue l : Int) - (if borrow then 1 else 0) - nextValue right = v at hw hh ⊢
    split
    · exact cons (isDigit_digit (by omega)) (ih hl.tail hr.listTail true)
    · exact cons (isDigit_digit (by omega)) (ih hl.tail hr.listTail false)

theorem digits_subtractMagnitude (hl : Digits left) (hr : Digits right) : Digits (subtractMagnitude left right) := by
  unfold subtractMagnitude
  split
  · exact digits_nil
  · exact digits_nil
  · split
    · exact hl
    · exact (digits_subtractLoop hl.reverse hr.reverse false).reverse.stripZeros

variable {result : Bytes}

/-- Carrying writes digits. -/
theorem digits_carryLoop (h : Digits result) (carry : Nat) : Digits (carryLoop carry result) := by
  induction result generalizing carry with
  | nil => exact h
  | cons e result ih =>
    rw [carryLoop]
    split
    · exact h
    · exact cons (isDigit_digit (Nat.mod_lt _ (by decide))) (ih h.tail _)

/-- A row of the multiplication writes digits. -/
theorem digits_multiplyRow (left : Nat) (right : Bytes) (h : Digits result) (carry : Nat) :
    Digits (multiplyRow left right carry result) := by
  induction right generalizing carry result with
  | nil => exact digits_carryLoop h carry
  | cons r right ih =>
    cases result with
    | nil => exact h
    | cons e result => exact cons (isDigit_digit (Nat.mod_lt _ (by decide))) (ih h.tail _)

theorem digits_multiplyLoop (left right : Bytes) (h : Digits result) : Digits (multiplyLoop left right result) := by
  induction left generalizing result with
  | nil => exact h
  | cons l left ih =>
    have hw := digits_multiplyRow (digitValue l) right h 0
    rw [multiplyLoop]
    cases hr : multiplyRow (digitValue l) right 0 result with
    | nil => exact digits_nil
    | cons d tl =>
      rw [hr] at hw
      exact cons hw.head (ih hw.tail)

theorem digits_zeros (n : Nat) : Digits (replicate n 0x30) := by
  intro b hb
  rw [eq_of_mem_replicate hb]
  rfl

/-- The multiplication writes digits. -/
theorem digits_multiplyMagnitude (left right : Bytes) : Digits (multiplyMagnitude left right) := by
  unfold multiplyMagnitude
  split
  · exact digits_nil
  · exact (digits_multiplyLoop _ _ (digits_zeros _)).reverse.stripZeros

namespace BigNumber

/-! ## Numbers -/

/-- `ft_big_number::assign`. A text that is not a number, such as one with a plus sign, leaves the number as it was. -/
def assign (n : BigNumber) (number : Bytes) : BigNumber :=
  let negative := number.head? == some 0x2d
  let digits := if negative then number.tail else number
  if h : Digits digits then
    if digits = [] then if negative then n else {}
    else { digits := stripZeros digits, negative := negative && stripZeros digits != [0x30], isDigits := h.stripZeros }
  else n

/-- `append_digit`. A zero that stands alone is replaced. -/
def appendDigit (n : BigNumber) (d : UInt8) : BigNumber :=
  if h : isDigit d = true then
    { n with
      digits := (if n.digits = [0x30] then [] else n.digits) ++ [d]
      isDigits := by
        intro b hb
        rcases mem_append.mp hb with hb | hb
        · split at hb
          · exact absurd hb not_mem_nil
          · exact n.isDigits b hb
        · rw [mem_singleton.mp hb]
          exact h }
  else n

/-- `append`. -/
def append (n : BigNumber) (digits : Bytes) : BigNumber := digits.foldl appendDigit n

/-- `append_unsigned`. -/
def appendUnsigned (n : BigNumber) (value : UInt64) : BigNumber := n.append (text value.toNat)

/-- `trim_leading_zeros`. -/
def trimLeadingZeros (n : BigNumber) : BigNumber := { n with digits := stripZeros n.digits, isDigits := n.isDigits.stripZeros }

/-- `reduce_to`. The sign stays. -/
def reduceTo (n : BigNumber) (newSize : Nat) : BigNumber :=
  if n.digits.length ≤ newSize then n
  else { n with digits := n.digits.take newSize, isDigits := fun b hb => n.isDigits b (mem_of_mem_take hb) }

/-- `clear`. -/
def clear (_ : BigNumber) : BigNumber := {}

/-- `is_negative`. -/
def isNegative (n : BigNumber) : Bool := if isZeroValue n.digits then false else n.negative

/-- A result gets its sign; zero has none. -/
def ofMagnitude (digits : Bytes) (isDigits : Digits digits) (negative : Bool) : BigNumber :=
  { digits, negative := if isZeroValue digits then false else negative, isDigits }

/-- What `operator+` and `operator-` do with the signs that they take two numbers to have: numbers of one sign are added, of others
the smaller is subtracted. -/
def addSigned (a b : BigNumber) (leftNegative rightNegative : Bool) : BigNumber :=
  if leftNegative = rightNegative then ofMagnitude _ (digits_addMagnitude a.isDigits b.isDigits) leftNegative
  else
    match compareMagnitude a.digits b.digits with
    | .eq => {}
    | .gt => ofMagnitude _ (digits_subtractMagnitude a.isDigits b.isDigits) leftNegative
    | .lt => ofMagnitude _ (digits_subtractMagnitude b.isDigits a.isDigits) rightNegative

/-- `operator+`. -/
def add (a b : BigNumber) : BigNumber := a.addSigned b a.negative b.negative

/-- `operator-`. -/
def subtract (a b : BigNumber) : BigNumber :=
  a.addSigned b a.negative (if isZeroValue b.digits then false else !b.negative)

/-- `operator*`. -/
def multiply (a b : BigNumber) : BigNumber :=
  ofMagnitude _ (digits_multiplyMagnitude a.digits b.digits) (a.negative != b.negative)

/-- `subtract_magnitude`, as a number. -/
def difference (a b : BigNumber) : BigNumber :=
  { digits := subtractMagnitude a.digits b.digits, isDigits := digits_subtractMagnitude a.isDigits b.isDigits }

/-- The loop of `operator/` over the candidates for a digit of the quotient, from a candidate on, with the best digit so far and its
product. It ends with the first product that is not below the remainder. -/
def candidateLoop (other remainder : BigNumber) : Nat → Nat → Nat × BigNumber → Nat × BigNumber
  | 0, _, best => best
  | left + 1, candidate, best =>
    let product := other.multiply (({} : BigNumber).appendDigit (digit candidate))
    match compareMagnitude product.digits remainder.digits with
    | .lt => candidateLoop other remainder left (candidate + 1) (candidate, product)
    | .eq => (candidate, product)
    | .gt => best

/-- What a turn of the loop of `operator/` does with a remainder: the next digit of the quotient, and what remains. -/
def divideRemainder (other remainder : BigNumber) : Nat × BigNumber :=
  if compareMagnitude remainder.digits other.digits = .lt then (0, remainder)
  else
    let best := candidateLoop other remainder 9 1 (0, {})
    if 0 < best.1 then (best.1, remainder.difference best.2) else (0, remainder)

/-- The loop of `operator/` over the digits. -/
def divideLoop (other : BigNumber) : Bytes → BigNumber → BigNumber → BigNumber
  | [], _, result => result
  | d :: digits, remainder, result =>
    let step := divideRemainder other (remainder.appendDigit d).trimLeadingZeros
    divideLoop other digits step.2 (result.appendDigit (digit step.1))

/-- `FT_ERR_DIVIDE_BY_ZERO`, the one error of an operation that has memory. -/
inductive Error where
  | divideByZero
  deriving DecidableEq, Repr

/-- `operator/`. -/
def divide (a b : BigNumber) : Except Error BigNumber :=
  if isZeroValue b.digits then .error .divideByZero
  else if isZeroValue a.digits then .ok {}
  else
    match compareMagnitude a.digits b.digits with
    | .lt => .ok {}
    | .eq => .ok { ({} : BigNumber).appendDigit 0x31 with negative := a.negative != b.negative }
    | .gt =>
      let result := (divideLoop b a.digits {} {}).trimLeadingZeros
      .ok (ofMagnitude result.digits result.isDigits (a.negative != b.negative))

/-- What a number is after the assignment of a result. An error is cleared by it, and leaves zero. -/
def assigned (result : Except Error BigNumber) : BigNumber := result.toOption.getD {}

/-- `operator%`. -/
def modulo (a b : BigNumber) : Except Error BigNumber :=
  let quotient := assigned (a.divide b)
  let result := (a.subtract (quotient.multiply b)).trimLeadingZeros
  .ok (ofMagnitude result.digits result.isDigits result.negative)

/-! ## The last error

The comparisons read the code that earlier operations left on the thread, and answer false if it is not success; then they clear it. -/

/-- `_last_error`, of operations that have memory. -/
inductive LastError where
  | success
  | divideByZero
  | invalidArgument
  deriving DecidableEq, Repr

/-- `operator<`, on a thread with a last error. -/
def lessThan (error : LastError) (a b : BigNumber) : Bool :=
  if error ≠ .success then false
  else if isZeroValue a.digits ∧ isZeroValue b.digits then false
  else if a.negative ∧ ¬b.negative then true
  else if ¬a.negative ∧ b.negative then false
  else if a.negative then compareMagnitude a.digits b.digits = .gt
  else compareMagnitude a.digits b.digits = .lt

/-- `operator==`. -/
def equal (error : LastError) (a b : BigNumber) : Bool :=
  if error ≠ .success then false
  else if isZeroValue a.digits ∧ isZeroValue b.digits then true
  else if a.negative ≠ b.negative then false
  else a.digits = b.digits

/-- `operator<=`. The first comparison has cleared the error that the second would read. -/
def lessEqual (error : LastError) (a b : BigNumber) : Bool := if lessThan error a b then true else equal .success a b

/-- `operator>`. -/
def greater (error : LastError) (a b : BigNumber) : Bool := lessThan error b a

/-- `operator>=`. -/
def greaterEqual (error : LastError) (a b : BigNumber) : Bool := if greater error a b then true else equal .success a b

/-- What is done with the proxy that an operator gives: it is assigned to a number, converted to a pointer, the left side of another
operator, or dropped. -/
inductive Use where
  | assigned
  | converted
  | operand
  | dropped
  deriving DecidableEq, Repr

/-- The operations of a thread, as far as they differ in the error they leave. -/
inductive Operation where
  /-- `assign`. -/
  | assign (number : Bytes)
  /-- `append`, of digits or of a null pointer; `append_digit` and `append_unsigned` are as the former. -/
  | append (digits : Option Bytes)
  /-- `to_string_base`. -/
  | toStringBase (base : Int)
  /-- `operator/`. -/
  | divide (a b : BigNumber) (use : Use)
  /-- The other operators, the comparisons, copies and moves, `initialize`, `destroy`, `assign_base`, `trim_leading_zeros`, `reduce_to`,
  `clear`, `mod_pow` and the queries: they end with a success, if only by the destructors of their own numbers. -/
  | other

/-- The last error after an operation. -/
def Operation.lastError (error : LastError) : Operation → LastError
  | .assign _ => error
  | .append none => .invalidArgument
  | .append (some _) => error
  | .toStringBase base => if base < 2 ∨ 16 < base then .invalidArgument else error
  | .divide a b use =>
    match a.divide b, use with
    -- the error is in the proxy, and comes back to the thread when the proxy is converted or is an operand
    | .error .divideByZero, .converted => .divideByZero
    | .error .divideByZero, .operand => .divideByZero
    | _, _ => .success
  | .other => .success

/-- The last error of a thread after its operations. -/
def lastError (history : List Operation) : LastError := history.foldl Operation.lastError .success

/-! ## Modular powers -/

/-- A number that loses its sign and the zeros in front. -/
def unsigned (n : BigNumber) : BigNumber := { n with negative := false }.trimLeadingZeros

/-- The number one, as `mod_pow` builds it. -/
def one : BigNumber := ({} : BigNumber).appendDigit 0x31

/-- The loop of `mod_pow` that makes a remainder positive, and none if it has too few turns. -/
def raiseLoop (modulus : BigNumber) : Nat → BigNumber → Option BigNumber
  | 0, _ => none
  | turns + 1, remainder => if remainder.isNegative then raiseLoop modulus turns (remainder.add modulus) else some remainder

/-- The loop of `mod_pow` over the exponent, and none if it has too few turns. -/
def powerLoop (base modulus : BigNumber) : Nat → BigNumber → BigNumber → Option BigNumber
  | 0, _, _ => none
  | turns + 1, exponent, accumulator =>
    if isZeroValue exponent.digits then some accumulator
    else powerLoop base modulus turns (exponent.subtract one).unsigned (assigned ((accumulator.multiply base).modulo modulus))

/-- `mod_pow`, whose loops may take so many turns. -/
def modPow (turns : Nat) (base exponent modulus : BigNumber) : Option (Except LastError BigNumber) :=
  if isZeroValue modulus.digits then some (.error .divideByZero)
  else if modulus.isNegative then some (.error .invalidArgument)
  else if exponent.isNegative then some (.error .invalidArgument)
  else
    match raiseLoop modulus.unsigned turns (assigned (base.modulo modulus.unsigned)) with
    | none => none
    | some remainder =>
      if isZeroValue exponent.unsigned.digits then some (.ok (assigned (one.modulo modulus.unsigned)).unsigned)
      else
        (powerLoop remainder.trimLeadingZeros modulus.unsigned turns exponent.unsigned one).map fun power => .ok power.unsigned

end BigNumber

end Libft.CPPClass
