import GraphKernels.Arithmetic
import Mathlib

/-!
# Exact score arithmetic

The operations on scores without rounding. Narrow and wide numbers are the same rational numbers, and a
result is no number where one of its parts is none or where it is divided by zero, so that a run whose
scores are numbers has not divided by zero on the way to them.
-/

namespace GraphKernels

/-- The quotient of two rational numbers, which is no number when the divisor is zero. -/
def exactQuotient (x y : ℚ) : Option ℚ := if y = 0 then none else some (x / y)

/-- Whether one number lies below another. -/
def exactLess (x y : Option ℚ) : Bool := ((Option.map₂ (fun x y => decide (x < y)) x y)).getD false

namespace ScoreArithmetic

/-- Rational numbers, without rounding. -/
def exact : ScoreArithmetic (Option ℚ) (Option ℚ) where
  ofNat n := some n
  add := Option.map₂ (· + ·)
  sub := Option.map₂ (· - ·)
  mul := Option.map₂ (· * ·)
  div x y := (Option.map₂ exactQuotient x y).join
  abs := Option.map fun x => |x|
  less := exactLess
  widen := id
  narrow := id
  wideOfNat n := some n
  wideAdd := Option.map₂ (· + ·)
  wideMul := Option.map₂ (· * ·)
  wideDiv x y := (Option.map₂ exactQuotient x y).join
  wideLess := exactLess

variable {x y : ℚ}

/-- Zero is a number. -/
@[simp] theorem exact_zero : exact.zero = some 0 := by simp [zero, exact]

/-- Zero is a wide number. -/
@[simp] theorem exact_wideZero : exact.wideZero = some 0 := by simp [wideZero, exact]

/-- One is a wide number. -/
@[simp] theorem exact_wideOne : exact.wideOne = some 1 := by simp [wideOne, exact]

/-- One is a number. -/
@[simp] theorem exact_one : exact.one = some 1 := by simp [one, exact]

/-- The sum of two numbers is a number. -/
@[simp] theorem exact_add (x y : ℚ) : exact.add (some x) (some y) = some (x + y) := rfl

/-- The difference of two numbers is a number. -/
@[simp] theorem exact_sub (x y : ℚ) : exact.sub (some x) (some y) = some (x - y) := rfl

/-- The quotient of two numbers is a number unless the divisor is zero. -/
theorem exact_div (hy : y ≠ 0) : exact.div (some x) (some y) = some (x / y) := by
  change (some (exactQuotient x y)).join = _
  rw [Option.join_some, exactQuotient, if_neg hy]

/-- The sum of two wide numbers is a number. -/
@[simp] theorem exact_wideAdd (x y : ℚ) : exact.wideAdd (some x) (some y) = some (x + y) := rfl

/-- The quotient of two wide numbers is a number unless the divisor is zero. -/
theorem exact_wideDiv (hy : y ≠ 0) : exact.wideDiv (some x) (some y) = some (x / y) := by
  change (some (exactQuotient x y)).join = _
  rw [Option.join_some, exactQuotient, if_neg hy]

/-- Numbers add up to a number. -/
theorem foldl_exact_wideAdd (start : ℚ) (terms : List ℚ) :
    (terms.map some).foldl exact.wideAdd (some start) = some (start + terms.sum) := by
  induction terms generalizing start with
  | nil => simp
  | cons x rest ih => rw [List.map_cons, List.foldl_cons, exact_wideAdd, ih, List.sum_cons, add_assoc]

/-- Numbers have a number as their sum. -/
theorem sum_exact (terms : List ℚ) : exact.sum (terms.map some) = some terms.sum := by
  have hfold := foldl_exact_wideAdd 0 terms
  rw [zero_add] at hfold
  rw [sum, exact_zero]
  exact hfold

/-- Wide numbers have a number as their sum. -/
theorem wideSum_exact (terms : List ℚ) : exact.wideSum (terms.map some) = some terms.sum := by
  rw [wideSum, exact_wideZero, foldl_exact_wideAdd, zero_add]

/-- Wide numbers can be added in any grouping. -/
theorem exact_wideAdd_assoc (x y z : Option ℚ) :
    exact.wideAdd (exact.wideAdd x y) z = exact.wideAdd x (exact.wideAdd y z) := by
  cases x <;> cases y <;> cases z <;> simp [exact, add_assoc]

/-- Adding zero changes nothing. -/
theorem exact_wideAdd_zero (x : Option ℚ) : exact.wideAdd x exact.wideZero = x := by
  cases x <;> simp [exact, wideZero]

end ScoreArithmetic

end GraphKernels
