import GraphKernels.Component.Forest
import GraphKernels.Component.Labels
import GraphKernels.Event
import GraphKernels.Parameter.Basic
import GraphKernels.Random.Draw

/-!
# Components by sampled linking

Linking a few leading out-arcs of every vertex settles most of a graph into one large component. The
label that is most frequent among random vertices stands for that component, and the vertices that
have it are skipped when the remaining arcs are linked. Arcs of a skipped vertex are linked from their
other end, so that the labels come out as without skipping.
-/

namespace GraphKernels

/-- Link every vertex with the target of its out-arc of some number, if it has one. -/
def linkRound (g : Graph) (labels : Array Nat) (round : Nat) : Except Fault (Array Nat) := do
  let labels ← g.vertices.foldlM (fun labels u => do
    match ← g.outNeighbor? u round with
    | none => return labels
    | some v => Forest.link labels u v) labels
  Forest.compress labels

/-- The most frequent of some labels below `n` and how often it occurs; ties go to the smaller one. -/
def mostFrequent (n : Nat) (labels : List Nat) : Nat × Nat :=
  let counts := labels.foldl (fun counts label => counts.modify label (· + 1)) (Array.replicate n 0)
  counts.toList.zipIdx.foldl
    (fun best (count, label) => if best.2 < count then (label, count) else best) (0, 0)

/-- The most frequent label among random vertices, with how often it occurs. -/
def sampleLabel (labels : Array Nat) (p : ComponentParameters) : Except Fault (Nat × Nat) := do
  let draws := Random.drawMany p.numSamples (Random.longBelow labels.size)
  let (vertices, _) := draws.run (.ofSeed p.seed)
  return mostFrequent labels.size (← vertices.toList.mapM (readAt labels))

/-- Link the arcs of a vertex that no round has linked, unless its label is the one to be skipped. The
in-arcs of a directed graph count as well. -/
def linkRest (g : Graph) (rounds skipped : Nat) (labels : Array Nat) (u : Nat) :
    Except Fault (Array Nat) := do
  if (← readAt labels u) = skipped then return labels
  let labels ← ((← g.outNeighbors u).drop rounds).foldlM (Forest.link · u ·) labels
  if g.directed then (← g.inNeighbors u).foldlM (Forest.link · u ·) labels else return labels

/-- Part of a count in percent, rounded to a whole number. -/
def percentOf (part whole : Nat) : Float :=
  (Float.ofNat part / Float.ofNat whole * 100).round

/-- The labels of all components, with the label that was skipped and its count in the sample. -/
def Graph.linkComponents (g : Graph) (p : ComponentParameters) :
    Except Fault (Array Nat × Nat × Nat) := do
  let labels ← (List.range p.neighborRounds).foldlM (linkRound g) (Forest.singletons g.numVertices)
  let (skipped, count) ← sampleLabel labels p
  let labels ← g.vertices.foldlM (linkRest g p.neighborRounds skipped) labels
  return (← Forest.compress labels, skipped, count)

/-- The smallest vertex of the component of each vertex, by sampled linking. -/
def Graph.afforest (g : Graph) (p : ComponentParameters) :
    Except Failure (Traced (Array Nat)) := do
  p.validate.mapError .rejected
  if g.numVertices = 0 then return ⟨#[], []⟩
  let (labels, skipped, count) ← (g.linkComponents p).mapError Failure.fault
  return ⟨labels, [.componentSkipped skipped (percentOf count p.numSamples),
    .componentsComplete g.numVertices (countOwnLabels labels)]⟩

end GraphKernels
