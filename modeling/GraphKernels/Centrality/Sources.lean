import GraphKernels.Graph.Basic
import GraphKernels.Parameter.Basic
import GraphKernels.Random.Draw

/-!
# Choosing sources

A source is a fixed vertex, or a random one that has an out-arc. Random vertices are drawn until one
has an out-arc; a graph without arcs has no source to offer. Every other graph always offers one,
whatever the draws are: the smallest one stands in when very many draws have been in vain, and only then.
-/

namespace GraphKernels

/-- A number of draws after which a graph with an arc has offered a source, but for a chance below
`exp (-1000)`. -/
def Graph.drawBound (g : Graph) : Nat := 1000 * g.numVertices

/-- The smallest vertex that has an out-arc. -/
def Graph.smallestSource? (g : Graph) : Except Fault (Option Nat) :=
  g.vertices.findM? fun v => return (← g.outDegree v) ≠ 0

/-- Draw vertices until one has an out-arc, and take the smallest such vertex when the draws give
out. -/
def drawSource (g : Graph) : (fuel : Nat) → Random.Stream → Except Fault (Nat × Random.Stream)
  | 0, stream => do
    match ← g.smallestSource? with
    | some source => return (source, stream)
    | none => throw .unfinished
  | fuel + 1, stream => do
    let (candidate, stream) := (Random.below g.numVertices).run stream
    if (← g.outDegree candidate) ≠ 0 then return (candidate, stream)
    else drawSource g fuel stream

/-- The next source, if there is one. -/
def nextSource? (g : Graph) (fixed : Option Nat) (stream : Random.Stream) :
    Except Fault (Option Nat × Random.Stream) := do
  match fixed with
  | some source => return (some source, stream)
  | none =>
    if g.numArcs = 0 then return (none, stream)
    let (source, stream) ← drawSource g g.drawBound stream
    return (some source, stream)

/-- What a number of picks in a row give. -/
def pickSources (g : Graph) (fixed : Option Nat) :
    (count : Nat) → Random.Stream → List (Option Nat) → Except Fault (List (Option Nat))
  | 0, _, picked => .ok picked.reverse
  | count + 1, stream, picked => do
    let (source, stream) ← nextSource? g fixed stream
    pickSources g fixed count stream (source :: picked)

/-- The number of bytes in a pick of a list. -/
def pickBytes : Nat := 8

/-- What some number of picks give, as many as an array can have. -/
def Graph.picks (g : Graph) (fixed : Option Nat) (count : Nat) (seed : UInt64) :
    Except Fault (List (Option Nat)) := do
  requireRoom count pickBytes
  pickSources g fixed count (.ofSeed seed) []

/-- Pick some number of random sources, or none at all if there is no source. -/
def Graph.sampleSources (g : Graph) (count : Nat) (seed : UInt64) : Except Fault (List Nat) := do
  if g.numArcs = 0 then return []
  return (← pickSources g none count (.ofSeed seed) []).filterMap id

/-- The sources that centrality parameters describe. -/
def Graph.centralitySources (g : Graph) (p : CentralityParameters) : Except Failure (List Nat) := do
  p.validate.mapError .rejected
  match p.sources with
  | .all => return g.vertices
  | .sampled count seed => (g.sampleSources count seed).mapError .fault
  | .fixed sources => return sources

end GraphKernels
