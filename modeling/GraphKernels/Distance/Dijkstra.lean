import GraphKernels.Distance.Basic
import GraphKernels.Distance.Heap
import GraphKernels.Graph.Basic

/-!
# Serial distances

Vertices are settled in the order of their distance. The heap may hold several entries for a vertex,
of which only the one with its current distance does any work.
-/

namespace GraphKernels

/-- A tentative distance of a vertex; entries are ordered by distance and then by vertex. -/
structure Tentative where
  distance : Nat
  vertex : Nat
deriving DecidableEq, Repr

/-- Whether an entry comes no later than another. -/
def Tentative.le (a b : Tentative) : Bool :=
  a.distance < b.distance || (a.distance == b.distance && a.vertex ≤ b.vertex)

/-- A serial computation of distances under way. -/
structure Settling where
  distances : Array Nat
  pending : Heap Tentative

namespace Settling

/-- The computation that knows only its source. -/
def start (n source : Nat) : Except Fault Settling := do
  return {
    distances := ← writeAt (Array.replicate n unreached) source 0
    pending := Heap.push Tentative.le .empty ⟨0, source⟩ }

/-- Shorten the distance of a target if an arc allows it. -/
def relax (distance : Nat) (s : Settling) (a : Arc) : Except Fault Settling := do
  let shorter := min (extend distance a.weight) unreached
  if shorter < (← readAt s.distances a.target) then
    return {
      distances := ← writeAt s.distances a.target shorter
      pending := s.pending.push Tentative.le ⟨shorter, a.target⟩ }
  else return s

/-- Settle the vertex of an entry, unless the entry is out of date. -/
def settle (g : Graph) (s : Settling) (t : Tentative) : Except Fault Settling := do
  if (← readAt s.distances t.vertex) < t.distance then return s
  (← g.outArcs t.vertex).foldlM (relax t.distance) s

/-- Settle vertices until no entry is left. -/
def run (g : Graph) : (fuel : Nat) → Settling → Except Fault Settling
  | fuel, s =>
    match s.pending.pop? Tentative.le with
    | none => .ok s
    | some (least, rest) =>
      match fuel with
      | 0 => .error .unfinished
      | fuel + 1 => do run g fuel (← settle g { s with pending := rest } least)

end Settling

/-- The distances from a vertex of the graph. Every vertex is settled once, so that an arc brings about
one entry at most. With the entry of the source that bounds their number. -/
def Graph.distancesFrom (g : Graph) (source : Nat) : Except Fault (Array Nat) := do
  let s ← Settling.run g (g.numArcs + 1) (← Settling.start g.numVertices source)
  return s.distances

/-- The least sum of weights on a path to every vertex. -/
def Graph.dijkstra (g : Graph) (source : Nat) : Except Failure (Array Nat) := do
  (g.checkVertex source).mapError .refused
  (g.distancesFrom source).mapError .fault

end GraphKernels
