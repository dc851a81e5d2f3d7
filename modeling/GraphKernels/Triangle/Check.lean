import GraphKernels.Event
import GraphKernels.Graph.Basic

/-!
# Checking a triangle count

The sizes of the intersections of both neighbor lists, added up over all arcs, see every triangle six
times.
-/

namespace GraphKernels

/-- The number of common entries of two ascending lists, by merging them. -/
def intersectionSize : List Nat → List Nat → Nat
  | [], _ => 0
  | _, [] => 0
  | a :: as, b :: bs =>
    if a < b then intersectionSize as (b :: bs)
    else if b < a then intersectionSize (a :: as) bs
    else intersectionSize as bs + 1
termination_by as bs => as.length + bs.length

/-- The intersections along the out-arcs of a vertex, added up. -/
def intersectionsAt (lists : Array (List Nat)) (u : Nat) : Except Fault Nat := do
  let neighbors ← readAt lists u
  let sizes ← neighbors.mapM fun v => return intersectionSize neighbors (← readAt lists v)
  return total sizes

/-- The intersections along all arcs, added up. -/
def Graph.intersectionTotal (g : Graph) : Except Fault Nat := do
  return total (← g.vertices.mapM (intersectionsAt (← g.neighborLists)))

/-- Whether a number is the triangle count of a graph, with the reason if it is not. -/
def Graph.checkTriangles (g : Graph) (count : Nat) : Except Fault (Traced Bool) := do
  if g.directed then return ⟨false, [.trianglesNeedUndirected]⟩
  let expected := (← g.intersectionTotal) / 6
  if expected = count then return ⟨true, []⟩
  else return ⟨false, [.triangleMismatch count expected]⟩

end GraphKernels
