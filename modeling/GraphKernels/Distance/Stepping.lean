import GraphKernels.Distance.Basic
import GraphKernels.Event
import GraphKernels.Queue.Basic
import GraphKernels.Graph.Basic
import GraphKernels.Parameter.Basic
import Std.Data.TreeMap.Basic

/-!
# Delta-stepping

Tentative distances are kept in buckets: bucket `k` holds vertices whose distance lies from `k * delta`
up to `(k + 1) * delta`. A round relaxes the arcs of the current bucket, skips entries whose vertex has
moved to an earlier bucket, and then drains what was added to the same bucket as long as that stays
small. The next round takes the first bucket that is not empty. A vertex may be in several buckets, of
which only the first does any work.
-/

namespace GraphKernels

/-- Vertices by the number of their bucket; only buckets that hold a vertex are stored. -/
abbrev Buckets := Std.TreeMap Nat (Array Nat)

namespace Buckets

/-- Add a vertex to a bucket. -/
def add (b : Buckets) (bucket v : Nat) : Buckets :=
  b.alter bucket fun
    | none => some #[v]
    | some vertices => some (vertices.push v)

/-- The vertices of a bucket. -/
def vertices (b : Buckets) (bucket : Nat) : Array Nat := b.getD bucket #[]

/-- The first stored bucket from some number on, which mostly is the first of all. -/
def firstFrom? (b : Buckets) (bucket : Nat) : Option Nat :=
  match b.minKey? with
  | none => none
  | some least => if bucket ≤ least then some least else b.keys.find? (bucket ≤ ·)

end Buckets

/-- Tentative distances and the buckets that they put vertices in. -/
structure Relaxation where
  distances : Array Nat
  buckets : Buckets

namespace Relaxation

/-- Shorten the distance of a target if an arc of `u` allows it, and put the target in its bucket. -/
def relax (delta u : Nat) (r : Relaxation) (a : Arc) : Except Fault Relaxation := do
  let shorter := extend (← readAt r.distances u) a.weight
  if shorter < (← readAt r.distances a.target) then
    return {
      distances := ← writeAt r.distances a.target shorter
      buckets := r.buckets.add (← quotient shorter delta) a.target }
  else return r

/-- Relax all arcs of a vertex. -/
def relaxFrom (g : Graph) (delta : Nat) (r : Relaxation) (u : Nat) : Except Fault Relaxation := do
  (← g.outArcs u).foldlM (relax delta u) r

/-- Relax all arcs of a vertex, unless its distance lies below a floor. -/
def relaxAbove (g : Graph) (delta floor : Nat) (r : Relaxation) (u : Nat) :
    Except Fault Relaxation := do
  if floor ≤ (← readAt r.distances u) then r.relaxFrom g delta u else return r

/-- A bucket with this many vertices is left to the next round. -/
def fusionLimit : Nat := 1000

/-- Drain a bucket as long as it is small and not empty. -/
def fuse (g : Graph) (delta bucket : Nat) : (fuel : Nat) → Relaxation → Except Fault Relaxation
  | fuel, r =>
    match r.buckets[bucket]? with
    | none => .ok r
    | some vertices =>
      if vertices.size < fusionLimit then
        match fuel with
        | 0 => .error .unfinished
        | fuel + 1 => do
          let emptied : Relaxation := { r with buckets := r.buckets.erase bucket }
          fuse g delta bucket fuel (← vertices.toList.foldlM (relaxFrom g delta) emptied)
      else .ok r

end Relaxation

/-- Delta-stepping between two rounds. -/
structure Stepping where
  relaxation : Relaxation
  /-- The number of the current bucket. -/
  bucket : Nat := 0
  /-- The vertices of the current bucket. -/
  frontier : WindowQueue
  rounds : Nat := 0
  events : Array Event := #[]

/-- A bound on the entries of all buckets together: each one shortens a distance. -/
def Graph.steppingBound (g : Graph) : Nat := g.numVertices * unreached + 1

namespace Stepping

/-- The start of stepping, with the source in bucket 0. -/
def start (n source : Nat) : Except Fault Stepping := do
  let distances ← writeAt (Array.replicate n unreached) source 0
  let frontier ← ((WindowQueue.withCapacity 1).push source).mapError Overrun.fault
  return { relaxation := ⟨distances, ∅⟩, frontier := frontier.slide }

/-- Relax the current bucket until it is empty or large. -/
def settle (g : Graph) (delta : Nat) (s : Stepping) : Except Fault Stepping := do
  let r ← (← s.frontier.window).foldlM (Relaxation.relaxAbove g delta (delta * s.bucket)) s.relaxation
  let r ← Relaxation.fuse g delta s.bucket g.steppingBound r
  return { s with
    relaxation := r
    rounds := s.rounds + 1
    events := s.events.push (.steppingRound s.bucket s.frontier.length) }

/-- Make a bucket the current one. -/
def enter (s : Stepping) (bucket : Nat) : Except Fault Stepping := do
  let r := s.relaxation
  let vertices := r.buckets.vertices bucket
  let frontier ← (s.frontier.reset.ensureCapacity vertices.size).mapError Overrun.fault
  let frontier ← (frontier.append vertices.toList).mapError Overrun.fault
  return { s with
    relaxation := { r with buckets := r.buckets.erase bucket }
    bucket
    frontier := frontier.slide }

/-- Take rounds until all buckets are empty. -/
def run (g : Graph) (delta : Nat) : (fuel : Nat) → Stepping → Except Fault Stepping
  | 0, _ => .error .unfinished
  | fuel + 1, s => do
    let s ← s.settle g delta
    match s.relaxation.buckets.firstFrom? s.bucket with
    | none => return s
    | some bucket => run g delta fuel (← s.enter bucket)

end Stepping

/-- Step from a vertex of the graph. -/
def Graph.stepFrom (g : Graph) (source delta : Nat) : Except Fault Stepping := do
  Stepping.run g delta g.steppingBound (← Stepping.start g.numVertices source)

/-- The least sum of weights on a path to every vertex, by delta-stepping. -/
def Graph.deltaStepping (g : Graph) (source : Nat) (p : SteppingParameters) :
    Except Failure (Traced (Array Nat)) := do
  p.validate.mapError .rejected
  if g.numVertices ≤ source then .error (.rejected (.sourceOutOfBounds source g.numVertices))
  let s ← (g.stepFrom source p.delta).mapError Failure.fault
  let distances := s.relaxation.distances
  let reached := distances.countP (· != unreached)
  return ⟨distances, s.events.toList ++ [.steppingComplete source s.rounds reached]⟩

end GraphKernels
