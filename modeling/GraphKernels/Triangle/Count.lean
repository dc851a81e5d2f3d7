import GraphKernels.Centrality.Sources
import GraphKernels.Event
import GraphKernels.Graph.DegreeOrder

/-!
# Counting triangles

Every triangle `w < v < u` is found once, from its largest vertex: among the neighbors of `u` below
`u`, the neighbors `w` of each `v` below `v` are looked up in the list of `u`, which is only ever read
forwards. The lists have to be sorted and free of repetitions and loops. On a dense graph with skewed
degrees the vertices are relabelled first, so that the long lists of hubs are cut short by the order.
-/

namespace GraphKernels

/-- The number of entries of one ascending list that occur in another. -/
def countCommonForward : (entries list : List Nat) → Nat
  | [], _ => 0
  | w :: rest, list =>
    let list := list.dropWhile (· < w)
    (if list.head? = some w then 1 else 0) + countCommonForward rest list

/-- The number of triangles whose largest vertex is `u`. -/
def trianglesBelow (lists : Array (List Nat)) (u : Nat) : Except Fault Nat := do
  let neighbors ← readAt lists u
  let counts ← (neighbors.takeWhile (· < u)).mapM fun v => do
    return countCommonForward ((← readAt lists v).takeWhile (· < v)) neighbors
  return total counts

/-- The number of triangles, counted without looking at the order of the lists. -/
def Graph.countFromLargest (g : Graph) : Except Fault Nat := do
  return total (← g.vertices.mapM (trianglesBelow (← g.neighborLists)))

/-- The largest number of vertices whose degrees are sampled. -/
def degreeSamples : Nat := 1000

/-- The number of edges per vertex from which a graph counts as dense. -/
def denseDegree : Nat := 10

/-- How far the average degree has to exceed the median. -/
def skewFactor : Float := 1.3

/-- The degrees of some random vertices that have an out-arc, in ascending order. -/
def sampleDegrees (g : Graph) (count : Nat) : Except Fault (List Nat) := do
  let degrees ← (← g.sampleSources count defaultSeed).mapM g.outDegree
  return degrees.mergeSort

/-- Whether the average of some degrees exceeds their median by far, with both. -/
def degreeSkew (degrees : List Nat) : Float × Float × Bool :=
  let average := Float.ofNat (total degrees) / Float.ofNat degrees.length
  let median := Float.ofNat (degrees.getD (degrees.length / 2) 0)
  (average, median, average / skewFactor > median)

/-- Whether relabelling by degree should pay off. -/
def Graph.hasSkewedDegrees (g : Graph) : Except Fault (Traced Bool) := do
  if g.numVertices = 0 then return ⟨false, []⟩
  if (← quotient g.numEdges g.numVertices) < denseDegree then return ⟨false, []⟩
  let (average, median, relabel) := degreeSkew (← sampleDegrees g (min degreeSamples g.numVertices))
  return ⟨relabel, [.degreesSampled average median relabel]⟩

/-- The number of triangles of an undirected graph with sorted rows. -/
def Graph.triangleCount (g : Graph) : Except Failure (Traced Nat) := do
  if g.directed then .error (.rejected .directedGraph)
  if let some u := ← g.firstUnsorted?.mapError Failure.fault then
    .error (.rejected (.unsortedNeighbors u))
  let worth ← g.hasSkewedDegrees.mapError Failure.fault
  let counted ← if worth.value then g.renameTraced else pure ⟨g, []⟩
  let triangles ← counted.value.countFromLargest.mapError Failure.fault
  return ⟨triangles,
    worth.events ++ counted.events ++ [.trianglesComplete g.numVertices triangles]⟩

end GraphKernels
