import GraphKernels.Random.Stream

/-!
# Draws from a range

A word `v` is scaled to a range of `r` values by the high half of `v * r`, and rejected if the low
half lies past the largest multiple of the range that fits. Scaling alone keeps every draw in its
range, so a draw that has rejected very many words takes the next one as it is. One that rejects no more
gives what it would give without that bound.
-/

namespace GraphKernels.Random

variable {α : Type}

/-- The largest low half that is accepted for a range of `r` values. -/
def acceptedZone (bits r : Nat) : Nat := r * Nat.pow 2 (bits - 1 - r.log2) - 1

/-- Draw a number below `r` from words of some width, rejecting at most `patience` of them. -/
def drawBelow (bits : Nat) (next : Draw Nat) (r : Nat) : (patience : Nat) → Draw Nat
  | 0 => return (← next) * r / Nat.pow 2 bits
  | patience + 1 => do
    let product := (← next) * r
    if product % Nat.pow 2 bits ≤ acceptedZone bits r then return product / Nat.pow 2 bits
    else drawBelow bits next r patience

/-- The number of words that one draw may reject. -/
def drawPatience : Nat := 256

/-- Draw a number below `r` from 32-bit words. -/
def below (r : Nat) : Draw Nat := drawBelow 32 (UInt32.toNat <$> nextWord) r drawPatience

/-- Draw a number below `r` from 64-bit words. -/
def longBelow (r : Nat) : Draw Nat := drawBelow 64 (UInt64.toNat <$> nextLongWord) r drawPatience

/-- A word is scaled to the range, or rejected while there is patience. -/
theorem drawBelow_succ (bits : Nat) (next : Draw Nat) (r patience : Nat) (s : Stream) :
    (drawBelow bits next r (patience + 1)).run s =
      if (next.run s).1 * r % Nat.pow 2 bits ≤ acceptedZone bits r then
        ((next.run s).1 * r / Nat.pow 2 bits, (next.run s).2)
      else (drawBelow bits next r patience).run (next.run s).2 := by
  change (if (next.run s).1 * r % Nat.pow 2 bits ≤ acceptedZone bits r then
    pure ((next.run s).1 * r / Nat.pow 2 bits) else drawBelow bits next r patience : Draw Nat).run
      (next.run s).2 = _
  split <;> rfl

/-- A draw lies below its range, whatever the words are. -/
theorem drawBelow_lt {bits : Nat} {next : Draw Nat} (hnext : ∀ s, (next.run s).1 < Nat.pow 2 bits)
    {r : Nat} (hr : 0 < r) (patience : Nat) (s : Stream) :
    ((drawBelow bits next r patience).run s).1 < r := by
  have hscale {word : Nat} (hword : word < Nat.pow 2 bits) : word * r / Nat.pow 2 bits < r := by
    apply Nat.div_lt_of_lt_mul
    exact Nat.mul_lt_mul_of_pos_right hword hr
  induction patience generalizing s with
  | zero => exact hscale (hnext s)
  | succ patience ih =>
    rw [drawBelow_succ]
    split
    · exact hscale (hnext s)
    · exact ih _

/-- A draw from 32-bit words lies below its range. -/
theorem below_lt {r : Nat} (hr : 0 < r) (s : Stream) : ((below r).run s).1 < r := by
  have hword (s : Stream) : ((UInt32.toNat <$> nextWord).run s).1 < Nat.pow 2 32 :=
    UInt32.toNat_lt (nextWord.run s).1
  exact drawBelow_lt hword hr drawPatience s

/-- A draw from 64-bit words lies below its range. -/
theorem longBelow_lt {r : Nat} (hr : 0 < r) (s : Stream) : ((longBelow r).run s).1 < r := by
  have hword (s : Stream) : ((UInt64.toNat <$> nextLongWord).run s).1 < Nat.pow 2 64 :=
    UInt64.toNat_lt (nextLongWord.run s).1
  exact drawBelow_lt hword hr drawPatience s

/-- The number of binary places of a fraction. -/
def fractionBits : Nat := 53

/-- Draw a fraction between zero and one, in units of its last binary place. -/
def fraction : Draw Nat := return (← nextLongWord).toNat / Nat.pow 2 (64 - fractionBits)

/-- Draw several times and add what is drawn to a list of earlier draws. -/
def drawOnto (draw : Draw α) (drawn : Array α) : (count : Nat) → Draw (Array α)
  | 0 => return drawn
  | count + 1 => do drawOnto draw (drawn.push (← draw)) count

/-- Draw several times. -/
def drawMany (count : Nat) (draw : Draw α) : Draw (Array α) := drawOnto draw #[] count

/-- Swap each entry from a position downwards with a random one that is not behind it. -/
def shuffleFrom : (last : Nat) → Array α → Draw (Array α)
  | 0, items => return items
  | last + 1, items => do
    let other ← below (last + 2)
    shuffleFrom last (items.swapIfInBounds (last + 1) other)

/-- A random order of some items. -/
def shuffle (items : Array α) : Draw (Array α) := shuffleFrom (items.size - 1) items

end GraphKernels.Random
