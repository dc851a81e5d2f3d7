import GraphKernels.Distance.Dijkstra
import GraphKernels.Event

/-!
# Checking distances

Distances are compared, vertex by vertex, with those of the serial computation.
-/

namespace GraphKernels

/-- Whether some distances are those from a source, with the reasons if they are not. -/
def Graph.checkDistances (g : Graph) (source : Nat) (distances : Array Nat) :
    Except Fault (Traced Bool) := do
  if g.numVertices ≤ source then return ⟨false, [.sourceOutOfBounds source]⟩
  let expected ← g.distancesFrom source
  if expected.size ≠ distances.size then
    return ⟨false, [.distanceCountWrong distances.size expected.size]⟩
  let mismatches := (distances.toList.zip expected.toList).zipIdx.filterMap
    fun ((got, expected), v) => if got = expected then none else some (.distanceMismatch v got expected)
  return ⟨mismatches.isEmpty, mismatches⟩

end GraphKernels
