import GraphKernels.Graph.Basic

/-!
# Component labels

Two vertices are in one component when a path of arcs joins them, whatever the arcs' directions. The
serial labelling floods each component from its smallest vertex, whose id becomes the label.
-/

namespace GraphKernels

/-- A flood under way. -/
structure Flood where
  labels : Array (Option Nat)
  /-- The labelled vertices whose neighbors are still to be looked at, the latest first. -/
  pending : List Nat := []
deriving DecidableEq, Repr

namespace Flood

/-- Label a vertex, unless it has a label. -/
def label (label : Nat) (f : Flood) (v : Nat) : Except Fault Flood := do
  match ← readAt f.labels v with
  | some _ => return f
  | none => return ⟨← writeAt f.labels v (some label), v :: f.pending⟩

/-- Label the neighbors of vertices until none is left to look at. -/
def run (g : Graph) (label : Nat) : (fuel : Nat) → Flood → Except Fault Flood
  | fuel, f =>
    match f.pending with
    | [] => .ok f
    | u :: rest =>
      match fuel with
      | 0 => .error .unfinished
      | fuel + 1 => do
        let neighbors := (← g.outNeighbors u) ++ (← g.inNeighbors u)
        run g label fuel (← neighbors.foldlM (Flood.label label) { f with pending := rest })

/-- Flood from a vertex with its own id, unless it has a label. -/
def spread (g : Graph) (labels : Array (Option Nat)) (start : Nat) :
    Except Fault (Array (Option Nat)) := do
  let f ← Flood.label start { labels } start
  return (← run g start g.numVertices f).labels

end Flood

/-- The smallest vertex of the component of each vertex. -/
def Graph.componentLabels (g : Graph) : Except Fault (Array Nat) := do
  let labels ← g.vertices.foldlM (Flood.spread g) (Array.replicate g.numVertices none)
  return labels.map (·.getD 0)

/-- The number of vertices that are their own label. -/
def countOwnLabels (labels : Array Nat) : Nat :=
  labels.toList.zipIdx.countP fun (label, u) => label == u

/-- The number of components. -/
def Graph.componentCount (g : Graph) : Except Fault Nat := do
  return countOwnLabels (← g.componentLabels)

end GraphKernels
