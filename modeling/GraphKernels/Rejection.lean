import GraphKernels.Decimal.Shortest
import GraphKernels.Fault

/-!
# Rejected input

A kernel checks its parameters and its source vertices before it starts. Unreachable vertices,
vertices without arcs and a ranking that has not converged are answers and not errors. Building,
reading and relabelling a graph have errors of their own, and so has a pair of stored tables.
-/

namespace GraphKernels

/-- A numeric parameter that a kernel checks. -/
inductive Parameter
  | alpha
  | beta
  | delta
  | numSamples
  | sourceCount
  | damping
  | epsilon
deriving DecidableEq, Repr

/-- The name of a parameter in its document. -/
def Parameter.name : Parameter → String
  | .alpha => "alpha"
  | .beta => "beta"
  | .delta => "delta"
  | .numSamples => "num_samples"
  | .sourceCount => "sources.count"
  | .damping => "damping"
  | .epsilon => "epsilon"

/-- Why the value of a parameter is rejected. -/
inductive ParameterFlaw
  /-- The parameter is zero. -/
  | notPositive
  /-- The parameter is negative, or not a number. -/
  | negative
  /-- The parameter is a single-precision number, given by its bits, outside `[0, 1]`. -/
  | outsideUnit (bits : UInt32)
deriving DecidableEq, Repr

/-- The wording of a flaw. -/
def ParameterFlaw.message : ParameterFlaw → String
  | .notPositive => "must be positive"
  | .negative => "must be non-negative"
  | .outsideUnit bits => Decimal.textOfBits bits ++ " is outside [0, 1]"

/-- A broken precondition of a kernel. -/
inductive Rejection
  /-- The source is not a vertex of the graph. -/
  | sourceOutOfBounds (vertex numVertices : Nat)
  /-- The kernel needs an undirected graph. -/
  | directedGraph
  /-- The first vertex whose neighbor list is not strictly ascending or holds the vertex itself. -/
  | unsortedNeighbors (vertex : Nat)
  /-- A parameter is outside its range. -/
  | invalidParameter (parameter : Parameter) (flaw : ParameterFlaw)
deriving DecidableEq, Repr

/-- The wording of a broken precondition. -/
def Rejection.message : Rejection → String
  | .sourceOutOfBounds vertex numVertices =>
    s!"source vertex {vertex} out of bounds for graph with {numVertices} vertices"
  | .directedGraph => "input graph is directed but the kernel requires an undirected graph"
  | .unsortedNeighbors vertex =>
    s!"neighbors of vertex {vertex} are not sorted, unique and loop-free"
  | .invalidParameter parameter flaw =>
    "invalid parameter `" ++ parameter.name ++ "`: " ++ flaw.message

/-- Why a graph cannot be built, generated, relabelled or asked about a vertex. -/
inductive GraphError
  /-- An edge ends at a vertex that the given vertex count excludes. -/
  | endpointOutOfBounds (endpoint numVertices : Nat)
  /-- Vertices are numbered by 32-bit words, and so is their count. -/
  | tooManyVertices (numVertices : Nat)
  /-- Two to the power of the scale vertices would not fit the 32-bit ids. -/
  | scaleTooLarge (scale : Nat)
  /-- The vertex is not one of the graph. -/
  | vertexOutOfBounds (vertex : Nat)
  /-- Only an undirected graph has one degree to order its vertices by. -/
  | relabelDirected
deriving DecidableEq, Repr

/-- The wording of a graph error. -/
def GraphError.message : GraphError → String
  | .endpointOutOfBounds endpoint numVertices =>
    s!"edge endpoint {endpoint} out of bounds for {numVertices} vertices"
  | .tooManyVertices numVertices => s!"{numVertices} vertices exceed the u32 id space"
  | .scaleTooLarge scale => s!"scale {scale} exceeds the u32 id space"
  | .vertexOutOfBounds vertex => s!"Node ID {vertex} out of bounds"
  | .relabelDirected => "relabel_by_degree requires an undirected graph"

/-- How an operation on a graph ends when it gives no answer. -/
inductive Failure
  /-- A kernel rejected its input. -/
  | rejected (error : Rejection)
  /-- The graph itself allows no answer. -/
  | refused (error : GraphError)
  /-- The computation went wrong. -/
  | fault (fault : Fault)
deriving DecidableEq, Repr

end GraphKernels
