import GraphKernels.Graph.Basic

/-!
# Hop depths

The serial search by levels: vertices are expanded in the order in which they are reached, and each
newly reached vertex lies one hop further from the source than the vertex it is reached from.
-/

namespace GraphKernels

/-- A serial search under way. -/
structure DepthSearch where
  /-- The hops from the source to each vertex reached so far. -/
  depths : Array (Option Nat)
  /-- The vertices reached so far, in order. -/
  reached : Array Nat
  /-- How many of them have been expanded. -/
  expanded : Nat := 0
deriving DecidableEq, Repr

namespace DepthSearch

/-- The search that has reached only its source. -/
def start (n source : Nat) : Except Fault DepthSearch := do
  return { depths := ← writeAt (Array.replicate n none) source (some 0), reached := #[source] }

/-- Reach a vertex at some depth, unless it is reached already. -/
def reach (depth : Option Nat) (s : DepthSearch) (v : Nat) : Except Fault DepthSearch := do
  match ← readAt s.depths v with
  | some _ => return s
  | none => return { s with depths := ← writeAt s.depths v depth, reached := s.reached.push v }

/-- Reach all out-neighbors of a vertex. -/
def expand (g : Graph) (s : DepthSearch) (u : Nat) : Except Fault DepthSearch := do
  let depth ← readAt s.depths u
  (← g.outNeighbors u).foldlM (reach (depth.map (· + 1))) { s with expanded := s.expanded + 1 }

/-- Expand vertices until none is left. -/
def run (g : Graph) : (fuel : Nat) → DepthSearch → Except Fault DepthSearch
  | fuel, s =>
    match s.reached[s.expanded]? with
    | none => .ok s
    | some u =>
      match fuel with
      | 0 => .error .unfinished
      | fuel + 1 => do run g fuel (← s.expand g u)

end DepthSearch

/-- The hops to every vertex from a vertex of the graph. -/
def Graph.depthsFrom (g : Graph) (source : Nat) : Except Fault (Array (Option Nat)) := do
  let s ← DepthSearch.run g g.numVertices (← DepthSearch.start g.numVertices source)
  return s.depths

/-- The hops to every vertex, none for a vertex that is not reachable. -/
def Graph.hopDepths (g : Graph) (source : Nat) : Except Failure (Array (Option Nat)) := do
  (g.checkVertex source).mapError .refused
  (g.depthsFrom source).mapError .fault

end GraphKernels
