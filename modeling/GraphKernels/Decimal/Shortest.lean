/-!
# Shortest decimal text of a single-precision number

A finite number of the format is `significand * 2 ^ exponent`. The reals that round to it form an
interval, which holds its ends when the significand is even. The digits chosen are those of the
coarsest decimal grid with a point in that interval, and of two such points the nearer one, so the
text reads back as the same number and no shorter one does. The text is always positional.
-/

namespace GraphKernels.Decimal

/-- The exact value of a positive number over a common denominator, with the ends of the interval
of reals that round to it. -/
structure Enclosure where
  value : Nat
  low : Nat
  high : Nat
  denominator : Nat
  closed : Bool
deriving DecidableEq, Repr

namespace Enclosure

/-- The enclosure of the positive number with the given exponent and fraction fields. -/
def ofFields (exponent fraction : Nat) : Enclosure :=
  let significand := if exponent = 0 then fraction else fraction + Nat.pow 2 23
  -- The next number below is half as far away at the bottom of a binade.
  let below := if fraction = 0 ∧ 1 < exponent then 1 else 2
  let position := max exponent 1
  let scale := Nat.pow 2 (position - 152)
  { value := 4 * significand * scale
    low := (4 * significand - below) * scale
    high := (4 * significand + 2) * scale
    denominator := Nat.pow 2 (152 - position)
    closed := significand % 2 = 0 }

/-- Whether a real, given over the denominator, rounds to the number. -/
def holds (e : Enclosure) (x : Nat) : Bool :=
  if e.closed then e.low ≤ x && x ≤ e.high else e.low < x && x < e.high

/-- The enclosure of the number times a power of ten. -/
def scaled (e : Enclosure) (power : Nat) : Enclosure :=
  let scale := Nat.pow 10 power
  { e with value := e.value * scale, low := e.low * scale, high := e.high * scale }

/-- The multiple of `unit` in the interval that is nearest to the value, a tie going up. -/
def nearestMultiple? (e : Enclosure) (unit : Nat) : Option Nat :=
  let step := unit * e.denominator
  let lower := e.value / step
  let down := e.holds (lower * step)
  let up := e.holds ((lower + 1) * step)
  if down && (!up || 2 * (e.value - lower * step) < step) then some lower
  else if up then some (lower + 1)
  else none

end Enclosure

/-- Decimal digits followed by a number of zeros, or with a number of places after the point. -/
inductive Digits
  | whole (digits zeros : Nat)
  | places (digits count : Nat)
deriving DecidableEq, Repr

/-- The digits on the coarsest grid that meets the interval. -/
def shortestDigits (e : Enclosure) : Digits :=
  let whole? := (List.range 40).reverse.findSome? fun zeros =>
    (e.nearestMultiple? (Nat.pow 10 zeros)).map (Digits.whole · zeros)
  let places? := (List.range 60).findSome? fun count =>
    ((e.scaled count).nearestMultiple? 1).map (Digits.places · count)
  (whole? <|> places?).getD (.whole 0 0)

/-- The positional text of some digits. -/
def Digits.text : Digits → String
  | .whole digits zeros => toString digits ++ "".pushn '0' zeros
  | .places digits count =>
    let unit := Nat.pow 10 count
    let fraction := toString (digits % unit)
    toString (digits / unit) ++ "." ++ "".pushn '0' (count - fraction.length) ++ fraction

/-- The text of the single-precision number with the given bits. -/
def textOfBits (bits : UInt32) : String :=
  let sign := if bits.toNat / Nat.pow 2 31 = 1 then "-" else ""
  let exponent := bits.toNat / Nat.pow 2 23 % Nat.pow 2 8
  let fraction := bits.toNat % Nat.pow 2 23
  if exponent = 255 then
    if fraction = 0 then sign ++ "inf" else "NaN"
  else if exponent = 0 ∧ fraction = 0 then sign ++ "0"
  else sign ++ (shortestDigits (.ofFields exponent fraction)).text

end GraphKernels.Decimal
