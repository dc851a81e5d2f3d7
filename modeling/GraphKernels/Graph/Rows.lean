import GraphKernels.Fault

/-!
# Compressed rows of arcs

The arcs of all vertices lie in one array, those of vertex `u` at the positions from `offsets[u]` up
to `offsets[u + 1]`. Rows are made from a list of edges by distributing the edges over their sources,
which keeps the order of the edges within each row. How the arrays are filled in place is left to
`Rows.assemble`, which ends in the same rows. Squishing a row drops loops, sorts by target and keeps the
lightest of parallel arcs.
-/

namespace GraphKernels

/-- An arc as its source lists it. -/
structure Arc where
  target : Nat
  weight : UInt32
deriving DecidableEq, Repr, Inhabited

/-- A weighted edge from a source to a target. -/
structure Edge where
  source : Nat
  target : Nat
  weight : UInt32
deriving DecidableEq, Repr, Inhabited

namespace Edge

/-- The edge in the other direction. -/
def flip (e : Edge) : Edge := ⟨e.target, e.source, e.weight⟩

/-- The edge as its source lists it. -/
def arc (e : Edge) : Arc := ⟨e.target, e.weight⟩

/-- Flipping twice gives the edge back. -/
@[simp] theorem flip_flip (e : Edge) : e.flip.flip = e := rfl

end Edge

/-- An arc of a source, as an edge. -/
def Arc.edgeFrom (source : Nat) (a : Arc) : Edge := ⟨source, a.target, a.weight⟩

/-- Distribute items over `n` bins by key, in order within each bin. -/
def distribute {α : Type} (n : Nat) (key : α → Nat) (items : List α) : Array (Array α) :=
  items.foldl (fun bins a => bins.modify (key a) (·.push a)) (Array.replicate n #[])

/-- The number of bins does not depend on the items. -/
theorem distribute_size {α : Type} (n : Nat) (key : α → Nat) (items : List α) :
    (distribute n key items).size = n := by
  have (bins : Array (Array α)) :
      (items.foldl (fun bins a => bins.modify (key a) (·.push a)) bins).size = bins.size := by
    induction items generalizing bins with
    | nil => rfl
    | cons a rest ih => simp [ih]
  simp [distribute, this]

/-- Each bin holds the items with its key, in order. -/
theorem distribute_getD {α : Type} (n : Nat) (key : α → Nat) (items : List α) (u : Nat)
    (hu : u < n) :
    ((distribute n key items).getD u #[]).toList = items.filter (key · == u) := by
  have (bins : Array (Array α)) (hsize : bins.size = n) :
      ((items.foldl (fun bins a => bins.modify (key a) (·.push a)) bins).getD u #[]).toList =
        (bins.getD u #[]).toList ++ items.filter (key · == u) := by
    induction items generalizing bins with
    | nil => simp
    | cons a rest ih =>
      rw [List.foldl_cons, ih _ (by simpa using hsize)]
      by_cases ha : key a = u
      · simp [ha, hsize, hu, Array.getElem_modify]
      · simp [ha, hsize, hu, Array.getElem_modify]
  rw [distribute, this _ (by simp)]
  simp [hu]

/-- The sums of all leading parts of a list, each added to a start. -/
def runningSums (start : Nat) : List Nat → List Nat
  | [] => [start]
  | x :: rest => start :: runningSums (start + x) rest

/-- There is one sum more than there are terms. -/
@[simp] theorem runningSums_length (start : Nat) (terms : List Nat) :
    (runningSums start terms).length = terms.length + 1 := by
  induction terms generalizing start with
  | nil => rfl
  | cons x rest ih => simp [runningSums, ih]

/-- The sum of some numbers. -/
def total (terms : List Nat) : Nat := terms.foldl (· + ·) 0

/-- Arcs grouped by source, in compressed form. -/
structure Rows where
  offsets : Array Nat
  targets : Array Nat
  weights : Array UInt32
deriving DecidableEq, Repr

namespace Rows

/-- The rows of a graph without vertices. -/
def empty : Rows := ⟨#[0], #[], #[]⟩

/-- The rows whose arcs are listed vertex by vertex. -/
def ofLists (rows : List (List Arc)) : Rows where
  offsets := (runningSums 0 (rows.map List.length)).toArray
  targets := (rows.flatten.map Arc.target).toArray
  weights := (rows.flatten.map Arc.weight).toArray

/-- The number of rows. -/
def count (r : Rows) : Nat := r.offsets.size - 1

/-- The arcs of a vertex, none for a vertex that has no row. -/
def row (r : Rows) (u : Nat) : List Arc :=
  let start := r.offsets.getD u 0
  let stop := r.offsets.getD (u + 1) 0
  List.zipWith Arc.mk (r.targets.extract start stop).toList (r.weights.extract start stop).toList

/-- All arcs as edges, by ascending source. -/
def edges (r : Rows) : List Edge :=
  (List.range r.count).flatMap fun u => (r.row u).map (·.edgeFrom u)

/-- Where the arcs of a vertex start and where they stop. -/
@[inline] def span (r : Rows) (u : Nat) : Except Fault (Nat × Nat) := do
  let start ← readAt r.offsets u
  let stop ← readAt r.offsets (u + 1)
  return (start, stop)

/-- The number of arcs of a vertex. -/
def degree (r : Rows) (u : Nat) : Except Fault Nat := do
  let (start, stop) ← r.span u
  return stop - start

/-- The targets of a vertex. -/
def neighbors (r : Rows) (u : Nat) : Except Fault (List Nat) := do
  let (start, stop) ← r.span u
  readSpan r.targets start stop

/-- The first target of a vertex that passes a test. -/
@[inline] def findNeighbor? (r : Rows) (u : Nat) (test : Nat → Except Fault Bool) :
    Except Fault (Option Nat) := do
  let (start, stop) ← r.span u
  findSpan? r.targets start stop test

/-- The target of an arc of a vertex, given by its place in the row. -/
def neighbor? (r : Rows) (u i : Nat) : Except Fault (Option Nat) := do
  let (start, stop) ← r.span u
  spanEntry? r.targets start stop i

/-- The targets of a vertex, each with the position of its arc. -/
def positioned (r : Rows) (u : Nat) : Except Fault (List (Nat × Nat)) := do
  let (start, stop) ← r.span u
  let targets ← readSpan r.targets start stop
  return targets.zipIdx start

/-- The arcs of a vertex. -/
def arcs (r : Rows) (u : Nat) : Except Fault (List Arc) := do
  let (start, stop) ← r.span u
  let targets ← readSpan r.targets start stop
  let weights ← readSpan r.weights start stop
  return List.zipWith Arc.mk targets weights

/-- Looking for a neighbor is looking in the list of all neighbors. -/
theorem findNeighbor?_eq (r : Rows) (u : Nat) (test : Nat → Except Fault Bool) :
    r.findNeighbor? u test = (do (← r.neighbors u).findM? test) := by
  simp only [findNeighbor?, neighbors, findSpan?_eq]
  cases r.span u <;> rfl

/-- A neighbor given by its place is one of the list of all neighbors. -/
theorem neighbor?_eq (r : Rows) (u i : Nat) :
    r.neighbor? u i = (do return (← r.neighbors u)[i]?) := by
  simp only [neighbor?, neighbors, spanEntry?_eq]
  cases r.span u <;> rfl

end Rows

/-- Arcs are sorted by target, and parallel ones by weight. -/
def Arc.precedes (a b : Arc) : Bool :=
  a.target < b.target || (a.target == b.target && a.weight ≤ b.weight)

/-- The first of each run of arcs with one target. -/
def firstOfEachTarget (row : List Arc) : List Arc := row.eraseRepsBy (·.target == ·.target)

/-- The row of `u` without loops, sorted, with the lightest of parallel arcs. -/
def squishRow (u : Nat) (row : List Arc) : List Arc :=
  firstOfEachTarget ((row.filter (·.target != u)).mergeSort Arc.precedes)

/-- The rows of `n` vertices that hold the given edges, squished or as they come. -/
def Rows.ofEdges (n : Nat) (edges : List Edge) (squish : Bool) : Rows :=
  let rows := (distribute n Edge.source edges).toList.map fun bin => bin.toList.map Edge.arc
  .ofLists (if squish then rows.mapIdx squishRow else rows)

/-- The rows of the flipped arcs, by ascending source and in row order for one source. -/
def Rows.transpose (r : Rows) : Rows :=
  .ofEdges r.count (r.edges.map Edge.flip) false

end GraphKernels
