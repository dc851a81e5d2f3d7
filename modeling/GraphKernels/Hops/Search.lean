import GraphKernels.Event
import GraphKernels.Bitmap
import GraphKernels.Queue.Batch
import GraphKernels.Graph.Basic
import GraphKernels.Parameter.Basic

/-!
# Direction-optimizing search

A search by levels that fills each level in one of two directions. A top-down step takes the frontier
from a queue and claims the unvisited out-neighbors of its vertices. A bottom-up step goes through the
unvisited vertices and looks for an in-neighbor in the frontier, which it takes from a bitmap. The
search turns bottom-up when the frontier has more out-arcs than a share of the arcs still open, and
top-down again when the frontier shrinks and is no larger than a share of the vertices.

Visited vertices hold their parent. Unvisited ones hold their out-degree as a negative number, or -1 if
it is zero, so that a claim can add the degree to the next frontier's arc count.
-/

namespace GraphKernels

/-- The mark of an unvisited vertex with some out-degree. -/
def unvisitedMark (degree : Nat) : Int := if degree = 0 then -1 else -degree

/-- The marks of all vertices before a search. -/
def unvisitedMarks (g : Graph) : Except Fault (Array Int) := do
  let degrees ← g.vertices.mapM g.outDegree
  return (degrees.map unvisitedMark).toArray

/-- A top-down step under way. -/
structure Expansion where
  parents : Array Int
  /-- The vertices claimed so far, in front of the queue. -/
  claimed : Batch
  /-- The out-degrees of the vertices claimed so far, added up. -/
  scoutCount : Int := 0

namespace Expansion

/-- Claim a vertex for a parent, unless it is visited. -/
def claim (u : Nat) (e : Expansion) (v : Nat) : Except Fault Expansion := do
  let mark ← readAt e.parents v
  if mark < 0 then
    let claimed ← (e.claimed.push v).mapError Overrun.fault
    return ⟨← writeAt e.parents v u, claimed, e.scoutCount - mark⟩
  else return e

/-- Claim the out-neighbors of a vertex. -/
def expand (g : Graph) (e : Expansion) (u : Nat) : Except Fault Expansion := do
  (← g.outNeighbors u).foldlM (claim u) e

end Expansion

/-- Claim the unvisited out-neighbors of the window, which become the next window. -/
def pushLevel (g : Graph) (parents : Array Int) (queue : WindowQueue) :
    Except Fault (Array Int × WindowQueue × Int) := do
  let e ← (← queue.window).foldlM (Expansion.expand g) { parents, claimed := { queue } }
  let queue ← e.claimed.close.mapError Overrun.fault
  return (e.parents, queue.slide, e.scoutCount)

/-- A bottom-up step under way. -/
structure Awakening where
  parents : Array Int
  next : Bitmap
  awake : Nat := 0

/-- Give an unvisited vertex its first in-neighbor in the frontier as a parent. -/
@[inline] def Awakening.wake (g : Graph) (front : Bitmap) (a : Awakening) (u : Nat) :
    Except Fault Awakening := do
  if 0 ≤ (← readAt a.parents u) then return a
  match ← g.findInNeighbor? u front.get with
  | none => return a
  | some v => return ⟨← writeAt a.parents u v, ← a.next.set u, a.awake + 1⟩

/-- Give parents in the frontier to the unvisited vertices that have one, which become the next
frontier. -/
def pullLevel (g : Graph) (parents : Array Int) (front next : Bitmap) :
    Except Fault Awakening :=
  g.vertices.foldlM (Awakening.wake g front) { parents, next := next.reset }

/-- The window of a queue as a set of bits. -/
def bitmapOfWindow (queue : WindowQueue) (bitmap : Bitmap) : Except Fault Bitmap := do
  (← queue.window).foldlM Bitmap.set bitmap.reset

/-- Stage a vertex if its bit is set. -/
def stageSetBit (bitmap : Bitmap) (b : Batch) (u : Nat) : Except Fault Batch := do
  if ← bitmap.get u then (b.push u).mapError Overrun.fault else return b

/-- The set bits among the first `n`, in ascending order, as the next window of a queue. -/
def windowOfBitmap (n : Nat) (bitmap : Bitmap) (queue : WindowQueue) : Except Fault WindowQueue := do
  let b ← (List.range n).foldlM (stageSetBit bitmap) { queue }
  return (← b.close.mapError Overrun.fault).slide

/-- A share of the open arcs, rounded toward zero. -/
def openShare (arcs : Int) (alpha : Nat) : Except Fault Int :=
  if alpha = 0 then .error .divisionByZero else .ok (arcs.tdiv alpha)

/-- A search under way, between two changes of direction. -/
structure Search where
  parents : Array Int
  queue : WindowQueue
  front : Bitmap
  spare : Bitmap
  /-- The arcs that no frontier has counted yet. -/
  openArcs : Int
  /-- The out-arcs of the frontier. -/
  scoutCount : Int
  levels : Nat := 0
  events : Array Event := #[]

namespace Search

/-- The search that has visited only its source. -/
def start (g : Graph) (source : Nat) : Except Fault Search := do
  let n := g.numVertices
  let queue ← ((WindowQueue.withCapacity n).push source).mapError Overrun.fault
  return {
    parents := ← writeAt (← unvisitedMarks g) source source
    queue := queue.slide
    front := .clear n
    spare := .clear n
    openArcs := g.numArcs
    scoutCount := ← g.outDegree source }

/-- Take bottom-up steps while the frontier grows or exceeds its share of the vertices. -/
def bottomUp (g : Graph) (beta : Nat) : (fuel awake : Nat) → Search → Except Fault Search
  | 0, _, _ => .error .unfinished
  | fuel + 1, awake, s => do
    let step ← pullLevel g s.parents s.front s.spare
    let s := { s with
      parents := step.parents
      front := step.next
      spare := s.front
      levels := s.levels + 1
      events := s.events.push (.levelPulled step.awake) }
    if step.awake < awake ∧ step.awake ≤ (← quotient g.numVertices beta) then return s
    else bottomUp g beta fuel step.awake s

/-- Take one top-down step, or turn bottom-up until it pays to turn back. -/
def advance (g : Graph) (p : SearchParameters) (s : Search) : Except Fault Search := do
  if (← openShare s.openArcs p.alpha) < s.scoutCount then
    let awake := s.queue.length
    let front ← bitmapOfWindow s.queue s.front
    let s ← bottomUp g p.beta (g.numVertices + 1) awake { s with
      front
      queue := s.queue.slide
      events := s.events.push (.turnedBottomUp awake) }
    let queue ← windowOfBitmap g.numVertices s.front s.queue
    return { s with
      queue
      scoutCount := 1
      events := s.events.push (.turnedTopDown queue.length) }
  else
    let (parents, queue, scoutCount) ← pushLevel g s.parents s.queue
    return { s with
      parents
      queue
      openArcs := s.openArcs - s.scoutCount
      scoutCount
      levels := s.levels + 1
      events := s.events.push (.levelPushed queue.length scoutCount) }

/-- Advance until the frontier is empty. -/
def run (g : Graph) (p : SearchParameters) : (fuel : Nat) → Search → Except Fault Search
  | fuel, s =>
    if s.queue.isEmpty then .ok s
    else
      match fuel with
      | 0 => .error .unfinished
      | fuel + 1 => do run g p fuel (← s.advance g p)

/-- The parents of the visited vertices. -/
def tree (s : Search) : Array (Option Nat) :=
  s.parents.map fun mark => if 0 ≤ mark then some mark.toNat else none

end Search

/-- Search a graph from one of its vertices. -/
def Graph.searchFrom (g : Graph) (source : Nat) (p : SearchParameters) : Except Fault Search := do
  Search.run g p g.numVertices (← Search.start g source)

/-- The parents of all reachable vertices in a tree of shortest hop paths; the source is its own
parent. -/
def Graph.hopTree (g : Graph) (source : Nat) (p : SearchParameters) :
    Except Failure (Traced (Array (Option Nat))) := do
  p.validate.mapError .rejected
  if g.numVertices ≤ source then .error (.rejected (.sourceOutOfBounds source g.numVertices))
  let s ← (g.searchFrom source p).mapError Failure.fault
  let reached := s.tree.countP Option.isSome
  return ⟨s.tree, s.events.toList ++ [.searchComplete source s.levels reached]⟩

end GraphKernels
