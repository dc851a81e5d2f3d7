import GraphKernels.Graph.Build

/-!
# Relabelling by degree

The vertices of an undirected graph are renamed in the order of descending degree, ties by ascending
id, so that hubs get small ids. The rows of the result are squished.
-/

namespace GraphKernels

/-- Whether the first of two vertices comes no later in the order by descending degree. -/
def degreeOrder (degrees : Array Nat) (a b : Nat) : Bool :=
  let da := degrees.getD a 0
  let db := degrees.getD b 0
  db < da || (da == db && a ≤ b)

/-- The position of each vertex in an order of the vertices. -/
def ranks (order : List Nat) : Array Nat :=
  order.zipIdx.foldl (fun ids (old, rank) => ids.setIfInBounds old rank)
    (Array.replicate order.length 0)

namespace Graph

/-- The vertices by descending degree. -/
def degreeRanking (g : Graph) : Except Fault (List Nat) := do
  let degrees ← g.vertices.mapM g.outDegree
  return g.vertices.mergeSort (degreeOrder degrees.toArray)

/-- Rename the vertices of an undirected graph by descending degree. -/
def renameByDegree (g : Graph) : Except Failure Graph := do
  if g.directed then .error (.refused .relabelDirected)
  let order ← g.degreeRanking.mapError .fault
  let newIds := ranks order
  let rename (u : Nat) := (readAt newIds u).mapError Failure.fault
  let edges ← g.edges.mapM fun e => return ⟨← rename e.source, ← rename e.target, e.weight⟩
  return ofRows g.numVertices false (.ofEdges g.numVertices edges true)

/-- Rename the vertices of an undirected graph and report it. -/
def renameTraced (g : Graph) : Except Failure (Traced Graph) := do
  let relabelled ← g.renameByDegree
  return ⟨relabelled, [.graphRelabelled g.numVertices]⟩

end Graph

end GraphKernels
