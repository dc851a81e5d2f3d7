import GraphKernels.Graph.Rows

/-!
# Distances

Distances add up arc weights. A sum stops at the largest 32-bit word, and every distance from half of
that on counts as unreached.
-/

namespace GraphKernels

/-- The distance of a vertex that is not reached. -/
def unreached : Nat := 0x7FFFFFFF

/-- The largest sum of weights. -/
def maxSum : Nat := 0xFFFFFFFF

/-- A distance and one more arc. -/
def extend (distance : Nat) (weight : UInt32) : Nat := min (distance + weight.toNat) maxSum

end GraphKernels
