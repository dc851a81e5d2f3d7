import GraphKernels.Graph.Basic
import GraphKernels.Random.Draw

/-!
# Random edge lists

Both generators give `2 ^ scale` vertices, `degree` edges for each of them and weights from 1 to 255.
Uniform edges draw both endpoints alike. Recursive-matrix edges choose one of four quadrants for each
binary place of the endpoints, which skews the degrees, and rename the vertices by a random order.
-/

namespace GraphKernels.Random

/-- The largest scale, so that vertex ids fit 32 bits. -/
def maxScale : Nat := 31

/-- The largest weight of a random edge. -/
def maxEdgeWeight : Nat := 255

/-- The vertex count of a scale. -/
def verticesOfScale (scale : Nat) : Except GraphError Nat :=
  if maxScale < scale then .error (.scaleTooLarge scale) else .ok (Nat.pow 2 scale)

/-- Draw a weight. -/
def edgeWeight : Draw UInt32 := return UInt32.ofNat ((← below maxEdgeWeight) + 1)

/-- Draw an edge between any two of `n` vertices. -/
def uniformEdge (n : Nat) : Draw Edge := do
  let source ← below n
  let target ← below n
  return ⟨source, target, ← edgeWeight⟩

/-- Uniformly random edges. -/
def uniformEdges (scale degree : Nat) (seed : UInt64) : Except GraphError (List Edge) := do
  let n ← verticesOfScale scale
  let (edges, _) := (drawMany (degree * n) (uniformEdge n)).run (.ofSeed seed)
  return edges.toList

/-- Below this fraction neither endpoint gets the bit: the nearest fraction to 0.57. -/
def neitherBelow : Nat := 5134103575202365

/-- Below this fraction only the target gets the bit: the nearest fraction to 0.76. -/
def targetBelow : Nat := 6845471433603154

/-- Below this fraction only the source gets the bit: the nearest fraction to 0.95. -/
def sourceBelow : Nat := 8556839292003942

/-- Draw whether the source and the target get the bit of one binary place. -/
def quadrant : Draw (Bool × Bool) := do
  let p ← fraction
  return (decide (targetBelow ≤ p), decide (neitherBelow ≤ p ∧ p < targetBelow ∨ sourceBelow ≤ p))

/-- Draw the bits of two endpoints from one binary place up to another. -/
def quadrants (source target place : Nat) : (count : Nat) → Draw (Nat × Nat)
  | 0 => return (source, target)
  | count + 1 => do
    let (inSource, inTarget) ← quadrant
    quadrants (source + if inSource then Nat.pow 2 place else 0)
      (target + if inTarget then Nat.pow 2 place else 0) (place + 1) count

/-- Draw an edge whose endpoints have as many binary places as the scale. -/
def quadrantEdge (scale : Nat) : Draw Edge := do
  let (source, target) ← quadrants 0 0 0 scale
  return ⟨source, target, ← edgeWeight⟩

/-- Random edges of a recursive matrix with renamed vertices; where there are no edges, no names are
drawn. -/
def kroneckerEdges (scale degree : Nat) (seed : UInt64) : Except Failure (List Edge) := do
  let n ← (verticesOfScale scale).mapError .refused
  if degree = 0 then return []
  let (names, stream) := (shuffle (Array.range n)).run (.ofSeed seed)
  let (edges, _) := (drawMany (degree * n) (quadrantEdge scale)).run stream
  let rename (u : Nat) := (readAt names u).mapError Failure.fault
  edges.toList.mapM fun e => return ⟨← rename e.source, ← rename e.target, e.weight⟩

/-- How random edges are spread. -/
inductive EdgePattern
  | uniform
  | recursiveMatrix
deriving DecidableEq, Repr

namespace EdgePattern

/-- The random edges of a pattern. -/
def edges (pattern : EdgePattern) (scale degree : Nat) (seed : UInt64) :
    Except Failure (List Edge) :=
  match pattern with
  | uniform => (uniformEdges scale degree seed).mapError .refused
  | recursiveMatrix => kroneckerEdges scale degree seed

/-- The number of bytes in an edge of a list. -/
def edgeBytes : Nat := 12

/-- The random edges of a pattern, as many as an array can have. -/
def edges? (pattern : EdgePattern) (scale degree : Nat) (seed : UInt64) :
    Except Failure (List Edge) := do
  let n ← (verticesOfScale scale).mapError .refused
  (requireRoom (degree * n) edgeBytes).mapError .fault
  pattern.edges scale degree seed

end EdgePattern

end GraphKernels.Random
