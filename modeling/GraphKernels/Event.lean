/-!
# Events

What a run reports besides its answer, in the order in which it happens: the steps of a kernel, its
summary, and the reasons why a checker turns an answer down. An event is a value; how it is shown is
said once, by its record.
-/

namespace GraphKernels

/-- How much an event matters. -/
inductive Level
  | debug
  | info
  | warn
deriving DecidableEq, Repr

/-- The value of an event's field. -/
inductive FieldValue
  | integer (value : Int)
  | flag (value : Bool)
  | text (value : String)
  | real (value : Float)
deriving Repr

/-- An event as it is shown: its level, its message and its named fields. -/
structure EventRecord where
  level : Level
  message : String
  fields : List (String × FieldValue)
deriving Repr

/-- Something a run reports. -/
inductive Event
  | graphBuilt (numVertices arcs : Nat) (directed : Bool)
  | graphRelabelled (numVertices : Nat)
  | tablesWritten (arcs : Nat)
  | tablesRead (numVertices arcs : Nat)
  | turnedBottomUp (frontier : Nat)
  | levelPulled (awake : Nat)
  | turnedTopDown (frontier : Nat)
  | levelPushed (frontier : Nat) (scoutCount : Int)
  | searchComplete (source levels reached : Nat)
  | parentCountWrong (count numVertices : Nat)
  | sourceOutOfBounds (source : Nat)
  | sourceNotOwnParent (source parent : Nat)
  | parentNotOneLevelUp (vertex parent depth : Nat)
  | reachabilityMismatch (vertex : Nat)
  | steppingRound (bucket frontier : Nat)
  | steppingComplete (source rounds reached : Nat)
  | distanceCountWrong (count numVertices : Nat)
  | distanceMismatch (vertex got expected : Nat)
  | componentSkipped (component : Nat) (percent : Float)
  | componentsComplete (numVertices components : Nat)
  | labelCountWrong (count numVertices : Nat)
  | labelMismatch (vertex label : Nat)
  | pathsCounted (source levels : Nat)
  | centralityComplete (numSources numVertices : Nat)
  | scoreCountWrong (count numVertices : Nat)
  | centralityMismatch (vertex : Nat) (got want : Float)
  | rankingSweep (iteration : Nat) (change : Float)
  | rankingComplete (numVertices iterations : Nat) (change : Float) (converged : Bool)
  | rankingNotFixed (residual target : Float)
  | degreesSampled (average median : Float) (relabel : Bool)
  | trianglesComplete (numVertices triangles : Nat)
  | trianglesNeedUndirected
  | triangleMismatch (got expected : Nat)
deriving Repr

/-- A count as the value of a field. -/
def FieldValue.count (n : Nat) : FieldValue := .integer n

/-- How an event is shown. -/
def Event.record : Event → EventRecord
  | .graphBuilt numVertices arcs directed =>
    ⟨.debug, "built CSR graph",
      [("num_nodes", .count numVertices), ("arcs", .count arcs), ("directed", .flag directed)]⟩
  | .graphRelabelled numVertices =>
    ⟨.debug, "relabelled graph by degree", [("num_nodes", .count numVertices)]⟩
  | .tablesWritten arcs => ⟨.debug, "wrote graph to parquet", [("arcs", .count arcs)]⟩
  | .tablesRead numVertices arcs =>
    ⟨.debug, "read graph from parquet", [("num_nodes", .count numVertices), ("arcs", .count arcs)]⟩
  | .turnedBottomUp frontier =>
    ⟨.debug, "queue to bitmap", [("step", .text "e"), ("frontier", .count frontier)]⟩
  | .levelPulled awake =>
    ⟨.debug, "bottom-up step", [("step", .text "bu"), ("awake", .count awake)]⟩
  | .turnedTopDown frontier =>
    ⟨.debug, "bitmap to queue", [("step", .text "c"), ("frontier", .count frontier)]⟩
  | .levelPushed frontier scoutCount =>
    ⟨.debug, "top-down step",
      [("step", .text "td"), ("frontier", .count frontier), ("scout_count", .integer scoutCount)]⟩
  | .searchComplete source levels reached =>
    ⟨.info, "bfs complete",
      [("source", .count source), ("levels", .count levels), ("reached", .count reached)]⟩
  | .parentCountWrong count numVertices =>
    ⟨.warn, "parent array has wrong length",
      [("len", .count count), ("num_nodes", .count numVertices)]⟩
  | .sourceOutOfBounds source => ⟨.warn, "source out of bounds", [("source", .count source)]⟩
  | .sourceNotOwnParent source parent =>
    ⟨.warn, "source is not its own parent",
      [("source", .count source), ("parent", .count parent)]⟩
  | .parentNotOneLevelUp vertex parent depth =>
    ⟨.warn, "parent is not an in-neighbor one level up",
      [("vertex", .count vertex), ("parent", .count parent), ("depth", .count depth)]⟩
  | .reachabilityMismatch vertex =>
    ⟨.warn, "reachability mismatch", [("vertex", .count vertex)]⟩
  | .steppingRound bucket frontier =>
    ⟨.debug, "delta-stepping round", [("bin", .count bucket), ("frontier", .count frontier)]⟩
  | .steppingComplete source rounds reached =>
    ⟨.info, "delta-stepping complete",
      [("source", .count source), ("rounds", .count rounds), ("reached", .count reached)]⟩
  | .distanceCountWrong count numVertices =>
    ⟨.warn, "distance array has wrong length",
      [("len", .count count), ("num_nodes", .count numVertices)]⟩
  | .distanceMismatch vertex got expected =>
    ⟨.warn, "distance mismatch",
      [("vertex", .count vertex), ("got", .count got), ("expected", .count expected)]⟩
  | .componentSkipped component percent =>
    ⟨.debug, "skipping largest intermediate component",
      [("component", .count component), ("percent", .real percent)]⟩
  | .componentsComplete numVertices components =>
    ⟨.info, "afforest complete",
      [("num_nodes", .count numVertices), ("components", .count components)]⟩
  | .labelCountWrong count numVertices =>
    ⟨.warn, "label array has wrong length",
      [("len", .count count), ("num_nodes", .count numVertices)]⟩
  | .labelMismatch vertex label =>
    ⟨.warn, "component label disagrees with connectivity",
      [("vertex", .count vertex), ("label", .count label)]⟩
  | .pathsCounted source levels =>
    ⟨.debug, "path counting done", [("source", .count source), ("levels", .count levels)]⟩
  | .centralityComplete numSources numVertices =>
    ⟨.info, "betweenness complete",
      [("num_sources", .count numSources), ("num_nodes", .count numVertices)]⟩
  | .scoreCountWrong count numVertices =>
    ⟨.warn, "score array has wrong length",
      [("len", .count count), ("num_nodes", .count numVertices)]⟩
  | .centralityMismatch vertex got want =>
    ⟨.warn, "betweenness mismatch",
      [("vertex", .count vertex), ("got", .real got), ("want", .real want)]⟩
  | .rankingSweep iteration change =>
    ⟨.debug, "pagerank sweep", [("iteration", .count iteration), ("error", .real change)]⟩
  | .rankingComplete numVertices iterations change converged =>
    ⟨.info, "pagerank complete",
      [("num_nodes", .count numVertices), ("iterations", .count iterations),
        ("error", .real change), ("converged", .flag converged)]⟩
  | .rankingNotFixed residual target =>
    ⟨.warn, "pagerank scores are not a fixed point",
      [("error", .real residual), ("target_error", .real target)]⟩
  | .degreesSampled average median relabel =>
    ⟨.debug, "sampled degree distribution",
      [("average", .real average), ("median", .real median), ("relabel", .flag relabel)]⟩
  | .trianglesComplete numVertices triangles =>
    ⟨.info, "triangle count complete",
      [("num_nodes", .count numVertices), ("triangles", .count triangles)]⟩
  | .trianglesNeedUndirected =>
    ⟨.warn, "triangle counts are only defined for undirected graphs", []⟩
  | .triangleMismatch got expected =>
    ⟨.warn, "triangle count mismatch", [("got", .count got), ("expected", .count expected)]⟩

/-- An answer together with the events of the run that gave it. -/
structure Traced (α : Type) where
  value : α
  events : List Event

end GraphKernels
