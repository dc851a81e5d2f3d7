import GraphKernels.Event
import GraphKernels.Hops.Depths

/-!
# Checking a tree of hop paths

The check asks for three things: the source is its own parent, exactly the reachable vertices have a
parent, and every other parent is an in-neighbor that lies one hop closer to the source.
-/

namespace GraphKernels

/-- What is wrong with the parent of a vertex, if anything is. -/
def parentFlaw? (g : Graph) (source : Nat) (depths : Array (Option Nat)) (u : Nat) :
    Option Nat → Option Nat → Except Fault (Option Event)
  | some depth, some parent => do
    if u = source then
      return if parent = source then none else some (.sourceNotOwnParent source parent)
    let above := if depth = 0 then none else some (depth - 1)
    if (← g.inNeighbors u).contains parent && depths[parent]?.join == above then return none
    else return some (.parentNotOneLevelUp u parent depth)
  | none, none => return none
  | _, _ => return some (.reachabilityMismatch u)

/-- Whether some parents are a tree of shortest hop paths, with the reasons if they are not. -/
def Graph.checkHopTree (g : Graph) (source : Nat) (parents : Array (Option Nat)) :
    Except Fault (Traced Bool) := do
  if parents.size ≠ g.numVertices then
    return ⟨false, [.parentCountWrong parents.size g.numVertices]⟩
  if g.numVertices ≤ source then return ⟨false, [.sourceOutOfBounds source]⟩
  let depths ← g.depthsFrom source
  let flaws ← (depths.toList.zip parents.toList).zipIdx.filterMapM fun ((depth, parent), u) =>
    parentFlaw? g source depths u depth parent
  return ⟨flaws.isEmpty, flaws⟩

end GraphKernels
