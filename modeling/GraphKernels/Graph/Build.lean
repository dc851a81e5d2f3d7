import GraphKernels.Event
import GraphKernels.Graph.Basic

/-!
# Building a graph from a list of edges

The vertex count is given, or one more than the largest endpoint. An undirected graph holds every
edge in both directions, all edges as given before all of them flipped; a directed graph gets the
transpose of its rows. Rows can be squished while they are built.
-/

namespace GraphKernels

/-- How a list of edges is read as a graph. -/
structure BuildOptions where
  directed : Bool := true
  squish : Bool := false
  numVertices : Option Nat := none
deriving DecidableEq, Repr

/-- The least vertex count that covers all endpoints. -/
def endpointBound (edges : List Edge) : Nat :=
  edges.foldl (fun bound e => max bound (max e.source e.target + 1)) 0

/-- The largest vertex count, so that counts and ids fit 32 bits. -/
def maxVertices : Nat := 0xFFFFFFFF

namespace BuildOptions

/-- The vertex count of the graph, given or inferred. -/
def vertexCount (o : BuildOptions) (edges : List Edge) : Except GraphError Nat := do
  let bound := endpointBound edges
  let n := o.numVertices.getD bound
  if n < bound then .error (.endpointOutOfBounds (bound - 1) n)
  else if maxVertices < n then .error (.tooManyVertices n)
  else .ok n

/-- The edges whose sources list them. -/
def arcList (o : BuildOptions) (edges : List Edge) : List Edge :=
  if o.directed then edges else edges ++ edges.map Edge.flip

end BuildOptions

namespace Graph

/-- The graph of some out-arc rows. -/
def ofRows (n : Nat) (directed : Bool) (forward : Rows) : Graph :=
  ⟨n, forward, if directed then some forward.transpose else none⟩

/-- Build a graph from a list of edges. -/
def build (o : BuildOptions) (edges : List Edge) : Except GraphError Graph := do
  let n ← o.vertexCount edges
  return ofRows n o.directed (.ofEdges n (o.arcList edges) o.squish)

/-- What building a graph reports. -/
def builtEvent (g : Graph) : Event := .graphBuilt g.numVertices g.numArcs g.directed

/-- Build a graph and report it. -/
def buildTraced (o : BuildOptions) (edges : List Edge) : Except GraphError (Traced Graph) := do
  let g ← build o edges
  return ⟨g, [g.builtEvent]⟩

/-- The directed graph of a list of edges, in the order of the list. -/
def ofEdges (edges : List Edge) : Except GraphError (Traced Graph) := buildTraced {} edges

/-- The undirected graph of a list of edges, squished. -/
def ofUndirectedEdges (edges : List Edge) : Except GraphError (Traced Graph) :=
  buildTraced { directed := false, squish := true } edges

end Graph

end GraphKernels
