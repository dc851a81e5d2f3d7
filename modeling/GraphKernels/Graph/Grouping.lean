import GraphKernels.Graph.Rows

/-!
# Grouping edges in place

Rows are filled without a list for each vertex. The edges of every source are counted, and the sums of the counts
are the offsets. A cursor for each source starts at its offset, and every edge is put where the cursor of its
source stands, which then moves on. Squishing and turning around read whole rows, and every access is checked.
-/

namespace GraphKernels.Rows

/-- Count an edge for its source, one position further on. -/
def countEdge (counts : Array Nat) (e : Edge) : Except Fault (Array Nat) := do
  let count ← readAt counts (e.source + 1)
  writeAt counts (e.source + 1) (count + 1)

/-- Add the entry at a position to the one behind it. -/
def addToNext (counts : Array Nat) (u : Nat) : Except Fault (Array Nat) := do
  let count ← readAt counts (u + 1)
  let sum ← readAt counts u
  writeAt counts (u + 1) (count + sum)

/-- Arcs that are being put in their places, with a cursor for each source. -/
structure Placing where
  cursors : Array Nat
  targets : Array Nat
  weights : Array UInt32

/-- Put an edge where the cursor of its source stands, and move the cursor on. -/
def Placing.place (p : Placing) (e : Edge) : Except Fault Placing := do
  let slot ← readAt p.cursors e.source
  let targets ← writeAt p.targets slot e.target
  let weights ← writeAt p.weights slot e.weight
  return { cursors := ← writeAt p.cursors e.source (slot + 1), targets, weights }

/-- The rows of `n` vertices that hold the given edges as they come. -/
def group (n : Nat) (edges : List Edge) : Except Fault Rows := do
  let counts ← edges.foldlM countEdge (Array.replicate (n + 1) 0)
  let offsets ← (List.range n).foldlM addToNext counts
  let placed ← edges.foldlM Placing.place {
    cursors := offsets
    targets := Array.replicate edges.length 0
    weights := Array.replicate edges.length 0 }
  return { offsets, targets := placed.targets, weights := placed.weights }

/-- The same rows, squished. -/
def squish (r : Rows) : Except Fault Rows := do
  return ofLists ((← (List.range r.count).mapM r.arcs).mapIdx squishRow)

/-- The rows of `n` vertices that hold the given edges, squished or as they come. -/
def assemble (n : Nat) (edges : List Edge) (squished : Bool) : Except Fault Rows := do
  let r ← group n edges
  if squished then r.squish else return r

/-- The arcs of a vertex, flipped into edges. -/
def flippedArcs (r : Rows) (u : Nat) : Except Fault (List Edge) := do
  return (← r.arcs u).map fun a => (a.edgeFrom u).flip

/-- The rows of the flipped arcs. -/
def turn (r : Rows) : Except Fault Rows := do
  assemble r.count (← (List.range r.count).mapM r.flippedArcs).flatten false

end GraphKernels.Rows
