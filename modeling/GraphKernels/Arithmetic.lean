/-!
# Score arithmetic

Scores are stored in a narrow number type and their sums are taken in a wider one. The kernels that
compute scores name the operations they use and nothing else, so that a run is a fixed sequence of
operations on whatever numbers it is given.
-/

namespace GraphKernels

/-- The operations on narrow and wide numbers that scores are computed with. -/
structure ScoreArithmetic (N W : Type) where
  /-- The narrow number nearest to a count. -/
  ofNat : Nat → N
  add : N → N → N
  sub : N → N → N
  mul : N → N → N
  div : N → N → N
  abs : N → N
  less : N → N → Bool
  /-- A narrow number as a wide one. -/
  widen : N → W
  /-- The narrow number nearest to a wide one. -/
  narrow : W → N
  /-- The wide number nearest to a count. -/
  wideOfNat : Nat → W
  wideAdd : W → W → W
  wideMul : W → W → W
  wideDiv : W → W → W
  wideLess : W → W → Bool

namespace ScoreArithmetic

/-- Single precision for what is stored, and double precision for sums. -/
def binary : ScoreArithmetic Float32 Float where
  ofNat n := (UInt64.ofNat n).toFloat32
  add := (· + ·)
  sub := (· - ·)
  mul := (· * ·)
  div := (· / ·)
  abs := Float32.abs
  less x y := x < y
  widen := Float32.toFloat
  narrow := Float.toFloat32
  wideOfNat n := (UInt64.ofNat n).toFloat
  wideAdd := (· + ·)
  wideMul := (· * ·)
  wideDiv := (· / ·)
  wideLess x y := x < y

variable {N W : Type}

/-- Zero, as a narrow number. -/
def zero (ops : ScoreArithmetic N W) : N := ops.ofNat 0

/-- One, as a narrow number. -/
def one (ops : ScoreArithmetic N W) : N := ops.ofNat 1

/-- Zero, as a wide number. -/
def wideZero (ops : ScoreArithmetic N W) : W := ops.wideOfNat 0

/-- One, as a wide number. -/
def wideOne (ops : ScoreArithmetic N W) : W := ops.wideOfNat 1

/-- The sum of some narrow numbers from left to right. -/
def sum (ops : ScoreArithmetic N W) (terms : List N) : N := terms.foldl ops.add ops.zero

/-- The sum of some wide numbers from left to right. -/
def wideSum (ops : ScoreArithmetic N W) (terms : List W) : W :=
  terms.foldl ops.wideAdd ops.wideZero

/-- Where adding is associative, two parts of a sum can be added up apart. -/
theorem wideSum_append (ops : ScoreArithmetic N W)
    (hassoc : ∀ x y z, ops.wideAdd (ops.wideAdd x y) z = ops.wideAdd x (ops.wideAdd y z))
    (hzero : ∀ x, ops.wideAdd x ops.wideZero = x) (front back : List W) :
    ops.wideSum (front ++ back) = ops.wideAdd (ops.wideSum front) (ops.wideSum back) := by
  have hstart (total : W) : back.foldl ops.wideAdd (ops.wideAdd total ops.wideZero) =
      ops.wideAdd total (back.foldl ops.wideAdd ops.wideZero) := by
    generalize ops.wideZero = start
    induction back generalizing start with
    | nil => rfl
    | cons x rest ih => rw [List.foldl_cons, List.foldl_cons, hassoc, ih]
  simp only [wideSum, List.foldl_append]
  rw [← hstart, hzero]

end ScoreArithmetic

end GraphKernels
