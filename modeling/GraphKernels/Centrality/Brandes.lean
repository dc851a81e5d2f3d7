import GraphKernels.Arithmetic
import GraphKernels.Centrality.Sources
import GraphKernels.Event
import GraphKernels.Bitmap
import GraphKernels.Queue.Batch

/-!
# Betweenness centrality

For every source, a search by levels counts the shortest paths to each vertex. An arc whose target is
one level further than its source is a successor arc; its position is marked in a bitmap, and it hands
the path count of its source on to its target. The levels are then gone through backwards, and the
share of each vertex in the paths through its successors is added to its score. Scores are divided by
the largest one in the end.

Path counts, shares and marks live in one workspace, which is cleared for every source.
-/

namespace GraphKernels

variable {N W : Type}

/-- A count of shortest paths under way. -/
structure PathCounting (W : Type) where
  /-- The level of each vertex reached so far. -/
  depths : Array (Option Nat)
  /-- The number of shortest paths found so far. -/
  counts : Array W
  /-- The positions of successor arcs. -/
  successors : Bitmap
  queue : WindowQueue
  /-- Where each level starts in the queue. -/
  levelStarts : Array Nat

/-- The expansion of one level under way. -/
structure LevelExpansion (W : Type) where
  depths : Array (Option Nat)
  counts : Array W
  successors : Bitmap
  claimed : Batch

namespace LevelExpansion

/-- Reach a vertex at some depth, unless it is reached already. -/
def reach (depth : Nat) (e : LevelExpansion W) (v : Nat) : Except Fault (LevelExpansion W) := do
  match ← readAt e.depths v with
  | some _ => return e
  | none =>
    return { e with
      depths := ← writeAt e.depths v (some depth)
      claimed := ← (e.claimed.push v).mapError Overrun.fault }

/-- Reach the target of an arc and hand on the path count if it is a successor arc. -/
def follow (ops : ScoreArithmetic N W) (depth u : Nat) (e : LevelExpansion W)
    (arc : Nat × Nat) : Except Fault (LevelExpansion W) := do
  let (v, position) := arc
  let e ← e.reach depth v
  if (← readAt e.depths v) = some depth then
    let through := ops.wideAdd (← readAt e.counts v) (← readAt e.counts u)
    return { e with
      successors := ← e.successors.set position
      counts := ← writeAt e.counts v through }
  else return e

/-- Follow the out-arcs of a vertex. -/
def expand (ops : ScoreArithmetic N W) (g : Graph) (depth : Nat) (e : LevelExpansion W) (u : Nat) :
    Except Fault (LevelExpansion W) := do
  (← g.forward.positioned u).foldlM (follow ops depth u) e

end LevelExpansion

namespace PathCounting

/-- The count that has reached only its source. -/
def start (ops : ScoreArithmetic N W) (n source : Nat) (s : PathCounting W) :
    Except Fault (PathCounting W) := do
  return { s with
    depths := ← writeAt (Array.replicate n none) source (some 0)
    counts := ← writeAt s.counts source ops.wideOne
    queue := (← (s.queue.push source).mapError Overrun.fault).slide }

/-- Expand the window, whose vertices are at some depth. -/
def advance (ops : ScoreArithmetic N W) (g : Graph) (depth : Nat) (s : PathCounting W) :
    Except Fault (PathCounting W) := do
  let window ← s.queue.window
  let e ← window.foldlM (LevelExpansion.expand ops g (depth + 1))
    ⟨s.depths, s.counts, s.successors, { queue := s.queue }⟩
  return {
    depths := e.depths
    counts := e.counts
    successors := e.successors
    queue := (← e.claimed.close.mapError Overrun.fault).slide
    levelStarts := s.levelStarts.push s.queue.windowStart }

/-- Expand level after level until none is left. -/
def run (ops : ScoreArithmetic N W) (g : Graph) :
    (fuel depth : Nat) → PathCounting W → Except Fault (PathCounting W)
  | fuel, depth, s =>
    if s.queue.isEmpty then .ok { s with levelStarts := s.levelStarts.push s.queue.windowStart }
    else
      match fuel with
      | 0 => .error .unfinished
      | fuel + 1 => do run ops g fuel (depth + 1) (← s.advance ops g depth)

/-- Count the shortest paths from a source. -/
def ofSource (ops : ScoreArithmetic N W) (g : Graph) (source : Nat) (s : PathCounting W) :
    Except Fault (PathCounting W) := do
  run ops g g.numVertices 0 (← s.start ops g.numVertices source)

end PathCounting

/-- The share of a vertex once it gets its part of what a successor passes back. -/
def dependency (ops : ScoreArithmetic N W) (share : N) (ratio : W) (passed : N) : N :=
  ops.narrow (ops.wideAdd (ops.widen share)
    (ops.wideMul ratio (ops.wideAdd ops.wideOne (ops.widen passed))))

/-- The shares of the current source and the scores of all sources so far. -/
structure Shares (N : Type) where
  shares : Array N
  scores : Array N

namespace Shares

/-- The part of the share of `u` that comes from one of its arcs. -/
def gather (ops : ScoreArithmetic N W) (s : PathCounting W) (shares : Array N) (u : Nat) (share : N)
    (arc : Nat × Nat) : Except Fault N := do
  let (v, position) := arc
  if ← s.successors.get position then
    let ratio := ops.wideDiv (← readAt s.counts u) (← readAt s.counts v)
    return dependency ops share ratio (← readAt shares v)
  else return share

/-- Set the share of a vertex from its successors and add it to its score. -/
def settle (ops : ScoreArithmetic N W) (g : Graph) (s : PathCounting W) (t : Shares N) (u : Nat) :
    Except Fault (Shares N) := do
  let share ← (← g.forward.positioned u).foldlM (gather ops s t.shares u) ops.zero
  let score := ops.add (← readAt t.scores u) share
  return ⟨← writeAt t.shares u share, ← writeAt t.scores u score⟩

/-- Settle the vertices of a level, given by where it starts and stops in the queue. -/
def settleLevel (ops : ScoreArithmetic N W) (g : Graph) (s : PathCounting W) (t : Shares N)
    (level : Nat × Nat) : Except Fault (Shares N) := do
  (← s.queue.range level.1 level.2).foldlM (settle ops g s) t

/-- Settle all levels, the furthest one first. -/
def settleAll (ops : ScoreArithmetic N W) (g : Graph) (s : PathCounting W) (t : Shares N) :
    Except Fault (Shares N) :=
  let starts := s.levelStarts.toList
  (starts.zip starts.tail).reverse.foldlM (settleLevel ops g s) t

end Shares

/-- What centrality keeps from one source to the next. -/
structure CentralityWorkspace (N W : Type) where
  paths : PathCounting W
  shares : Shares N
  events : Array Event := #[]

namespace CentralityWorkspace

/-- The workspace before the first source. -/
def start (ops : ScoreArithmetic N W) (g : Graph) : CentralityWorkspace N W where
  paths := {
    depths := #[]
    counts := Array.replicate g.numVertices ops.wideZero
    successors := .clear g.numArcs
    queue := .withCapacity g.numVertices
    levelStarts := #[] }
  shares := ⟨Array.replicate g.numVertices ops.zero, Array.replicate g.numVertices ops.zero⟩

/-- The workspace with everything cleared that the next source must not see. -/
def cleared (ops : ScoreArithmetic N W) (w : CentralityWorkspace N W) : CentralityWorkspace N W :=
  { w with
    paths := { w.paths with
      counts := w.paths.counts.map fun _ => ops.wideZero
      successors := w.paths.successors.reset
      queue := w.paths.queue.reset
      levelStarts := #[] }
    shares := { w.shares with shares := w.shares.shares.map fun _ => ops.zero } }

/-- Count the paths from a source and add what they give to the scores. -/
def process (ops : ScoreArithmetic N W) (g : Graph) (w : CentralityWorkspace N W) (source : Nat) :
    Except Fault (CentralityWorkspace N W) := do
  let w := w.cleared ops
  let paths ← w.paths.ofSource ops g source
  let shares ← w.shares.settleAll ops g paths
  return ⟨paths, shares, w.events.push (.pathsCounted source (paths.levelStarts.size - 1))⟩

end CentralityWorkspace

/-- Divide scores by the largest one, unless none is positive. -/
def normalizeScores (ops : ScoreArithmetic N W) (scores : Array N) : Array N :=
  let largest := scores.foldl (fun largest x => if ops.less largest x then x else largest) ops.zero
  if ops.less ops.zero largest then scores.map (ops.div · largest) else scores

/-- The scores that some sources add up to, before they are normalized. -/
def Graph.accumulateCentrality (ops : ScoreArithmetic N W) (g : Graph) (sources : List Nat) :
    Except Fault (CentralityWorkspace N W) :=
  sources.foldlM (CentralityWorkspace.process ops g) (.start ops g)

/-- The centrality of every vertex over the shortest paths from some sources, in some arithmetic. -/
def Graph.centrality (ops : ScoreArithmetic N W) (g : Graph) (sources : List Nat) :
    Except Failure (Traced (Array N)) := do
  match sources.find? (g.numVertices ≤ ·) with
  | some bad => .error (.rejected (.sourceOutOfBounds bad g.numVertices))
  | none =>
    let w ← (g.accumulateCentrality ops sources).mapError Failure.fault
    return ⟨normalizeScores ops w.shares.scores,
      w.events.toList ++ [.centralityComplete sources.length g.numVertices]⟩

/-- The centrality of every vertex over the shortest paths from some sources. -/
def Graph.brandes (g : Graph) (sources : List Nat) : Except Failure (Traced (Array Float32)) :=
  g.centrality .binary sources

/-- The centrality of every vertex over the shortest paths that the parameters describe. -/
def Graph.betweenness (g : Graph) (p : CentralityParameters) :
    Except Failure (Traced (Array Float32)) := do
  g.brandes (← g.centralitySources p)

end GraphKernels
