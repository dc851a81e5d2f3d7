import GraphKernels.Arithmetic
import GraphKernels.Event
import GraphKernels.Graph.Basic
import GraphKernels.Parameter.Basic

/-!
# Ranking by in-arcs

The score of a vertex is a base plus the damped sum of what its in-neighbors contribute, each of which
splits its own score evenly among its out-arcs. A sweep goes through the vertices in order and puts
every new contribution in place at once, so that later vertices of the same sweep already see it.
Sweeps end with the first whose total change is small enough, or with the last one allowed. The total
is a rounded sum, so it is said as well which changes are added first.
-/

namespace GraphKernels

variable {N W : Type}

/-- What each out-arc of a vertex gets of its score. -/
def contribution (ops : ScoreArithmetic N W) (score : N) (outDegree : Nat) : N :=
  if outDegree = 0 then ops.zero else ops.div score (ops.ofNat outDegree)

/-- The part of each score that does not come over arcs. -/
def baseScore (ops : ScoreArithmetic N W) (damping : N) (n : Nat) : N :=
  ops.div (ops.sub ops.one damping) (ops.ofNat n)

/-- A sweep under way. -/
structure Sweep (N W : Type) where
  scores : Array N
  contributions : Array N
  /-- How much each score has changed, for the vertices that have been visited. -/
  changes : Array W := #[]

namespace Sweep

/-- Replace the score of a vertex. -/
def update (ops : ScoreArithmetic N W) (g : Graph) (damping : N) (s : Sweep N W) (u : Nat) :
    Except Fault (Sweep N W) := do
  let terms ← (← g.inNeighbors u).mapM (readAt s.contributions)
  let old ← readAt s.scores u
  let new := ops.add (baseScore ops damping g.numVertices) (ops.mul damping (ops.sum terms))
  return {
    scores := ← writeAt s.scores u new
    contributions := ← writeAt s.contributions u (contribution ops new (← g.outDegree u))
    changes := s.changes.push (ops.widen (ops.abs (ops.sub new old))) }

/-- The least number of changes that make up a half of their own. -/
def minHalf : Nat := 16384

/-- The total of some changes, taken from left to right, or in two halves if these are large enough. -/
def totalChange (ops : ScoreArithmetic N W) (changes : List W) : W :=
  let half := changes.length / 2
  if half < minHalf then ops.wideSum changes
  else ops.wideAdd (ops.wideSum (changes.take half)) (ops.wideSum (changes.drop half))

/-- Where adding is associative, the halves make no difference to the total. -/
theorem totalChange_eq_wideSum (ops : ScoreArithmetic N W)
    (hassoc : ∀ x y z, ops.wideAdd (ops.wideAdd x y) z = ops.wideAdd x (ops.wideAdd y z))
    (hzero : ∀ x, ops.wideAdd x ops.wideZero = x) (changes : List W) :
    totalChange ops changes = ops.wideSum changes := by
  simp only [totalChange]
  split
  · rfl
  · rw [← ops.wideSum_append hassoc hzero, List.take_append_drop]

end Sweep

/-- A ranking between two sweeps. -/
structure Ranking (N W : Type) where
  scores : Array N
  contributions : Array N
  /-- The change of each sweep so far. -/
  changes : Array W := #[]
  converged : Bool := false

namespace Ranking

/-- The ranking that gives all vertices the same score. -/
def start (ops : ScoreArithmetic N W) (g : Graph) : Except Fault (Ranking N W) := do
  let score := ops.div ops.one (ops.ofNat g.numVertices)
  let contributions ← g.vertices.mapM fun u => return contribution ops score (← g.outDegree u)
  return {
    scores := Array.replicate g.numVertices score
    contributions := contributions.toArray }

/-- Sweep over all vertices once. -/
def sweep (ops : ScoreArithmetic N W) (g : Graph) (damping : N) (r : Ranking N W) :
    Except Fault (Ranking N W × W) := do
  let start : Sweep N W := { scores := r.scores, contributions := r.contributions }
  let s ← g.vertices.foldlM (Sweep.update ops g damping) start
  let change := Sweep.totalChange ops s.changes.toList
  return ({ r with
    scores := s.scores
    contributions := s.contributions
    changes := r.changes.push change }, change)

/-- Sweep until the change is small enough. -/
def run (ops : ScoreArithmetic N W) (g : Graph) (damping : N) (epsilon : W) :
    (sweeps : Nat) → Ranking N W → Except Fault (Ranking N W)
  | 0, r => .ok r
  | sweeps + 1, r => do
    let (r, change) ← r.sweep ops g damping
    if ops.wideLess change epsilon then return { r with converged := true }
    else run ops g damping epsilon sweeps r

end Ranking

/-- Rank the vertices of a graph. -/
def Graph.rank (ops : ScoreArithmetic N W) (g : Graph) (damping : N) (epsilon : W)
    (maxSweeps : Nat) : Except Fault (Ranking N W) := do
  Ranking.run ops g damping epsilon maxSweeps (← Ranking.start ops g)

/-- The change that stands for a ranking without sweeps. -/
def infiniteChange : Float := .ofBits 0x7ff0000000000000

/-- The events of a ranking: one for each sweep, and a summary. -/
def rankingEvents (n : Nat) (r : Ranking Float32 Float) : List Event :=
  r.changes.toList.mapIdx (fun i change => .rankingSweep (i + 1) change) ++
    [.rankingComplete n r.changes.size (r.changes.back?.getD infiniteChange) r.converged]

/-- The scores of all vertices. -/
def Graph.pageRank (g : Graph) (p : RankingParameters) :
    Except Failure (Traced (Array Float32)) := do
  p.validate.mapError .rejected
  if g.numVertices = 0 then return ⟨#[], []⟩
  let r ← (g.rank .binary p.damping p.epsilon p.maxSweeps).mapError Failure.fault
  return ⟨r.scores, rankingEvents g.numVertices r⟩

end GraphKernels
