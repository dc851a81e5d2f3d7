import GraphKernels.Graph.Rows
import GraphKernels.Rejection

/-!
# Graphs

A graph holds the out-arcs of its vertices in compressed rows. A directed graph also holds the rows
of the flipped arcs, so that in-neighbors can be read; an undirected graph stores every edge in both
directions and reads in-neighbors off its out-arcs. Graphs do not change once they are built.
-/

namespace GraphKernels

/-- A weighted graph, directed exactly when it holds reverse rows. -/
structure Graph where
  numVertices : Nat
  forward : Rows
  reverse : Option Rows
deriving DecidableEq, Repr

namespace Graph

/-- The directed graph without vertices. -/
def empty : Graph := ⟨0, .empty, some .empty⟩

/-- Whether arcs have a direction. -/
def directed (g : Graph) : Bool := g.reverse.isSome

/-- The rows that in-neighbors are read from. -/
def incoming (g : Graph) : Rows := g.reverse.getD g.forward

/-- The stored reverse rows, which an undirected graph leaves empty. -/
def reverseRows (g : Graph) : Rows := g.reverse.getD .empty

/-- The vertices in ascending order. -/
def vertices (g : Graph) : List Nat := List.range g.numVertices

/-- The number of stored arcs. -/
def numArcs (g : Graph) : Nat := g.forward.targets.size

/-- The number of edges, an undirected edge being stored as two arcs. -/
def numEdges (g : Graph) : Nat := if g.directed then g.numArcs else g.numArcs / 2

/-- The number of out-arcs of a vertex. -/
def outDegree (g : Graph) (u : Nat) : Except Fault Nat := g.forward.degree u

/-- The number of in-arcs of a vertex. -/
def inDegree (g : Graph) (u : Nat) : Except Fault Nat := g.incoming.degree u

/-- The targets of the out-arcs of a vertex. -/
def outNeighbors (g : Graph) (u : Nat) : Except Fault (List Nat) := g.forward.neighbors u

/-- The out-neighbors of all vertices. -/
def neighborLists (g : Graph) : Except Fault (Array (List Nat)) := do
  return (← g.vertices.mapM g.outNeighbors).toArray

/-- The sources of the in-arcs of a vertex. -/
def inNeighbors (g : Graph) (u : Nat) : Except Fault (List Nat) := g.incoming.neighbors u

/-- The target of an out-arc of a vertex, given by its place in the row. -/
def outNeighbor? (g : Graph) (u i : Nat) : Except Fault (Option Nat) := g.forward.neighbor? u i

/-- The first source of an in-arc of a vertex that passes a test. -/
@[inline] def findInNeighbor? (g : Graph) (u : Nat) (test : Nat → Except Fault Bool) :
    Except Fault (Option Nat) := g.incoming.findNeighbor? u test

/-- The out-arcs of a vertex. -/
def outArcs (g : Graph) (u : Nat) : Except Fault (List Arc) := g.forward.arcs u

/-- The in-arcs of a vertex, each with its source in place of its target. -/
def inArcs (g : Graph) (u : Nat) : Except Fault (List Arc) := g.incoming.arcs u

/-- All arcs as edges, by ascending source. -/
def edges (g : Graph) : List Edge := g.forward.edges

/-- Fail unless the vertex is one of the graph. -/
def checkVertex (g : Graph) (u : Nat) : Except GraphError Unit :=
  if g.numVertices ≤ u then .error (.vertexOutOfBounds u) else .ok ()

/-- The out-neighbors of a vertex that may lie outside the graph. -/
def outgoing? (g : Graph) (u : Nat) : Except Failure (List Nat) := do
  (g.checkVertex u).mapError .refused
  (g.outNeighbors u).mapError .fault

/-- The in-neighbors of a vertex that may lie outside the graph. -/
def incoming? (g : Graph) (u : Nat) : Except Failure (List Nat) := do
  (g.checkVertex u).mapError .refused
  (g.inNeighbors u).mapError .fault

/-- Whether a neighbor list ascends strictly and leaves out the vertex itself. -/
def sortedAndLoopFree (u : Nat) (neighbors : List Nat) : Bool :=
  (neighbors.zip neighbors.tail).all (fun (a, b) => a < b) && neighbors.all (· != u)

/-- The first vertex whose neighbor list is not strictly ascending or holds the vertex itself. -/
def firstUnsorted? (g : Graph) : Except Fault (Option Nat) :=
  g.vertices.findM? fun u => do return !sortedAndLoopFree u (← g.outNeighbors u)

end Graph

end GraphKernels
