import GraphKernels.Centrality.Brandes
import GraphKernels.Hops.Depths

/-!
# Checking betweenness centrality

The same scores computed serially: the levels of a source come from the serial hop depths, and each is
gone through in the order of vertex ids. Scores are accepted up to the gap between one and the next
larger single-precision number.
-/

namespace GraphKernels

variable {N W : Type}

/-- The vertices at each depth, in ascending order. -/
def depthLevels (depths : Array (Option Nat)) : List (List Nat) :=
  let reached := depths.toList.zipIdx.filterMap fun (depth, u) => depth.map (·, u)
  let count := reached.foldl (fun count (depth, _) => max count (depth + 1)) 0
  (distribute count Prod.fst reached).toList.map fun level => level.toList.map Prod.snd

/-- Whether a vertex is one level further than another. -/
def isSuccessor (depths : Array (Option Nat)) (u v : Nat) : Except Fault Bool := do
  match ← readAt depths u, ← readAt depths v with
  | some depth, some further => return further == depth + 1
  | _, _ => return false

/-- Hand the path count of a vertex on to one of its neighbors if that is a successor. -/
def passCount (ops : ScoreArithmetic N W) (depths : Array (Option Nat)) (u : Nat) (counts : Array W)
    (v : Nat) : Except Fault (Array W) := do
  if ← isSuccessor depths u v then
    writeAt counts v (ops.wideAdd (← readAt counts v) (← readAt counts u))
  else return counts

/-- The part of the share of `u` that one of its neighbors passes back. -/
def passBack (ops : ScoreArithmetic N W) (depths : Array (Option Nat)) (counts : Array W) (u : Nat)
    (shares : Array N) (v : Nat) : Except Fault (Array N) := do
  if ← isSuccessor depths u v then
    let ratio := ops.wideDiv (← readAt counts u) (← readAt counts v)
    writeAt shares u (dependency ops (← readAt shares u) ratio (← readAt shares v))
  else return shares

/-- The share of a vertex from its successors, added to its score. -/
def settleSerially (ops : ScoreArithmetic N W) (g : Graph) (depths : Array (Option Nat))
    (counts : Array W) (t : Shares N) (u : Nat) : Except Fault (Shares N) := do
  let shares ← (← g.outNeighbors u).foldlM (passBack ops depths counts u) t.shares
  let score := ops.add (← readAt t.scores u) (← readAt shares u)
  return ⟨shares, ← writeAt t.scores u score⟩

/-- The scores with those of one more source. -/
def addSourceSerially (ops : ScoreArithmetic N W) (g : Graph) (depths : Array (Option Nat))
    (source : Nat) (scores : Array N) : Except Fault (Array N) := do
  let levels := depthLevels depths
  let counts ← writeAt (Array.replicate g.numVertices ops.wideZero) source ops.wideOne
  let counts ← levels.flatten.foldlM (fun counts u => do
    (← g.outNeighbors u).foldlM (passCount ops depths u) counts) counts
  let shares := Array.replicate g.numVertices ops.zero
  let t ← levels.reverse.flatten.foldlM (settleSerially ops g depths counts) ⟨shares, scores⟩
  return t.scores

/-- The scores of some sources, or the first source that is not a vertex. -/
def addSourcesSerially (ops : ScoreArithmetic N W) (g : Graph) :
    List Nat → Array N → Except Fault (Nat ⊕ Array N)
  | [], scores => .ok (.inr scores)
  | source :: rest, scores => do
    if g.numVertices ≤ source then return .inl source
    let depths ← g.depthsFrom source
    addSourcesSerially ops g rest (← addSourceSerially ops g depths source scores)

/-- The normalized scores of some sources, or the first source that is not a vertex. -/
def Graph.centralitySerially (ops : ScoreArithmetic N W) (g : Graph) (sources : List Nat) :
    Except Fault (Nat ⊕ Array N) := do
  match ← addSourcesSerially ops g sources (Array.replicate g.numVertices ops.zero) with
  | .inl source => return .inl source
  | .inr scores => return .inr (normalizeScores ops scores)

/-- The gap between one and the next larger single-precision number. -/
def singleGap : Float32 := .ofBits 0x34000000

/-- Whether some scores are the centrality over some sources, with the reasons if they are not. -/
def Graph.checkCentrality (g : Graph) (sources : List Nat) (scores : Array Float32) :
    Except Fault (Traced Bool) := do
  if scores.size ≠ g.numVertices then
    return ⟨false, [.scoreCountWrong scores.size g.numVertices]⟩
  match ← g.centralitySerially .binary sources with
  | .inl source => return ⟨false, [.sourceOutOfBounds source]⟩
  | .inr expected =>
    let mismatches := (scores.toList.zip expected.toList).zipIdx.filterMap fun ((got, want), u) =>
      if singleGap < (got - want).abs then
        some (.centralityMismatch u got.toFloat want.toFloat)
      else none
    return ⟨mismatches.isEmpty, mismatches⟩

end GraphKernels
