import GraphKernels.Proofs.Graph.Build
import GraphKernels.Proofs.Graph.Grouping

/-!
# Rows in the order of the edges

Rows that are not squished keep the order of the list of edges: a vertex lists its arcs in the order in which
the edges give them. The reverse rows of a directed graph list the in-arcs of a vertex by ascending source, and
those from one source in the order of the edges. A list of edges makes no graph exactly when a given vertex
count excludes an endpoint or the vertex count does not fit 32 bits.
-/

namespace GraphKernels

variable {o : BuildOptions} {edges : List Edge} {g : Graph} {n : Nat}

/-- The flipped edges give a vertex the arcs of the edges that end there, in order. -/
theorem arcsFrom_map_flip (v : Nat) (edges : List Edge) :
    arcsFrom v (edges.map Edge.flip) = (edges.filter (·.target == v)).map (·.flip.arc) := by
  rw [arcsFrom, List.filter_map, List.map_map]
  rfl

namespace BuildOptions

/-- The vertex count that the options ask for: the given one, or else the least that covers all endpoints. -/
def Counts (o : BuildOptions) (edges : List Edge) (n : Nat) : Prop :=
  o.numVertices = some n ∨
    o.numVertices = none ∧ IsLeast {m | ∀ e ∈ edges, e.source < m ∧ e.target < m} n

/-- The options ask for one vertex count. -/
theorem counts_iff : o.Counts edges n ↔ n = o.numVertices.getD (endpointBound edges) := by
  have hleast : IsLeast {m | ∀ e ∈ edges, e.source < m ∧ e.target < m} (endpointBound edges) :=
    ⟨fun _ he => lt_endpointBound he, fun _ hm => endpointBound_le_iff.mpr hm⟩
  rw [Counts]
  cases o.numVertices with
  | some given => simp [eq_comm]
  | none =>
    simp only [reduceCtorEq, true_and, false_or, Option.getD_none]
    exact ⟨fun h => h.unique hleast, fun h => h ▸ hleast⟩

/-- The vertex count falls short of the endpoints exactly when it is given and excludes one of them. -/
theorem getD_lt_endpointBound_iff : o.numVertices.getD (endpointBound edges) < endpointBound edges ↔
    ∃ given, o.numVertices = some given ∧ ∃ e ∈ edges, given ≤ e.source ∨ given ≤ e.target := by
  cases o.numVertices with
  | none => simp
  | some given =>
    rw [Option.getD_some, ← Nat.not_le, endpointBound_le_iff]
    push Not
    constructor
    · intro ⟨e, he, hexcluded⟩
      exact ⟨given, rfl, e, he, by omega⟩
    · intro ⟨_, hgiven, e, he, hexcluded⟩
      cases hgiven
      exact ⟨e, he, by omega⟩

end BuildOptions

namespace Graph

/-- Edges make no graph exactly when the vertex count falls short of the endpoints or does not fit 32 bits. -/
theorem build_eq_error_iff : (∃ error, build o edges = .error error) ↔
    o.numVertices.getD (endpointBound edges) < endpointBound edges ∨
      maxVertices < o.numVertices.getD (endpointBound edges) := by
  rw [← not_iff_not, not_or, Nat.not_lt, Nat.not_lt]
  constructor
  · intro haccepted
    cases hbuild : build o edges with
    | error error => exact absurd ⟨error, hbuild⟩ haccepted
    | ok g =>
      obtain ⟨n, hn, _⟩ := build_spec hbuild
      obtain ⟨rfl, hbound⟩ := BuildOptions.vertexCount_eq_ok_iff.mp hn
      exact hbound
  · intro hbound ⟨error, herror⟩
    rw [build, BuildOptions.vertexCount_eq_ok_iff.mpr ⟨rfl, hbound⟩] at herror
    cases herror

/-- The in-arcs of a directed graph whose rows are not squished are the edges that end there, by ascending
source. -/
theorem inArcs_ofRows_grouped (hlt : ∀ e ∈ edges, e.source < n ∧ e.target < n) {v : Nat} (hv : v < n) :
    (ofRows n true (.ofEdges n edges false)).inArcs v =
      .ok ((sortedBy Edge.source (edges.filter (·.target == v))).map (·.flip.arc)) := by
  have hrows : (Rows.ofEdges n edges false).Compressed n :=
    Rows.compressed_ofEdges false fun e he => (hlt e he).2
  rw [(wellFormed_ofRows true hrows).inArcs_eq hv]
  change Except.ok ((Rows.ofEdges n edges false).transpose.row v) = _
  rw [Rows.transpose, hrows.count_eq, Rows.row_grouped _ hv, Rows.edges_ofEdges hlt, arcsFrom_map_flip,
    filter_sortedBy]

/-- A list of edges makes no graph exactly when a given vertex count excludes an endpoint or the count does not
fit 32 bits. The rows of a graph are what grouping in place ends in, without a fault. Rows that are not squished are
in the order of the list: a vertex of a directed graph lists the edges that start there, and its in-arcs are the
edges that end there by ascending source, those from one source in the order of the list; a vertex of an undirected
graph lists the edges that start there and then those that end there, flipped. -/
theorem build_inputOrder (o : BuildOptions) (edges : List Edge) :
    ((∃ error, build o edges = .error error) ↔
      (∃ given, o.numVertices = some given ∧ ∃ e ∈ edges, given ≤ e.source ∨ given ≤ e.target) ∨
        ∃ n, o.Counts edges n ∧ 2 ^ 32 - 1 < n) ∧
    ∀ g, build o edges = .ok g → o.Counts edges g.numVertices ∧ g.directed = o.directed ∧
      (Rows.assemble g.numVertices (o.arcList edges) o.squish = .ok g.forward ∧
        (g.directed = true → g.forward.turn = .ok g.incoming)) ∧
      (o.squish = false → ∀ u < g.numVertices,
        (g.directed = true →
          g.outArcs u = .ok ((edges.filter (·.source == u)).map Edge.arc) ∧
          g.inArcs u = .ok ((sortedBy Edge.source (edges.filter (·.target == u))).map (·.flip.arc))) ∧
        (g.directed = false →
          g.outArcs u = .ok ((edges.filter (·.source == u)).map Edge.arc ++
            (edges.filter (·.target == u)).map (·.flip.arc)))) := by
  constructor
  · rw [build_eq_error_iff, BuildOptions.getD_lt_endpointBound_iff]
    simp only [BuildOptions.counts_iff, exists_eq_left]
    rfl
  · intro g hbuild
    obtain ⟨n, hn, rfl⟩ := build_spec hbuild
    have hlt := (BuildOptions.vertexCount_spec hn).2
    have hwell := wellFormed_build hbuild
    refine ⟨BuildOptions.counts_iff.mpr (BuildOptions.vertexCount_eq_ok_iff.mp hn).1,
      directed_ofRows n o.directed _, ⟨?_, fun hdirected => ?_⟩, fun hsquish u hu => ?_⟩
    · exact Rows.assemble_eq (fun e he => BuildOptions.arcList_lt hn he) o.squish
    · rw [directed_ofRows] at hdirected
      rw [hwell.forward.turn_eq, hdirected]
      rfl
    · have hrow : (Rows.ofEdges n (o.arcList edges) o.squish).row u = arcsFrom u (o.arcList edges) := by
        rw [hsquish]
        exact Rows.row_grouped _ hu
      rw [directed_ofRows, hwell.outArcs_eq hu, ofRows, hrow, BuildOptions.arcList]
      constructor
      · intro hdirected
        rw [hsquish, hdirected, if_pos rfl]
        exact ⟨rfl, inArcs_ofRows_grouped hlt hu⟩
      · intro hundirected
        rw [hundirected, if_neg (by simp), arcsFrom_append, arcsFrom_map_flip]
        rfl

/-- A list with parallel edges out of order and a loop: directed with a vertex without arcs, undirected, and with
a vertex count that excludes an endpoint. -/
theorem build_inputOrder_parallel :
    (∃ g, build { numVertices := some 4 } [⟨2, 1, 5⟩, ⟨0, 1, 7⟩, ⟨2, 2, 1⟩, ⟨0, 1, 3⟩] = .ok g ∧
      g.numVertices = 4 ∧ g.outArcs 2 = .ok [⟨1, 5⟩, ⟨2, 1⟩] ∧
      g.inArcs 1 = .ok [⟨0, 7⟩, ⟨0, 3⟩, ⟨2, 5⟩]) ∧
    (∃ g, build { directed := false } [⟨2, 1, 5⟩, ⟨0, 1, 7⟩, ⟨2, 2, 1⟩, ⟨0, 1, 3⟩] = .ok g ∧
      g.outArcs 1 = .ok [⟨2, 5⟩, ⟨0, 7⟩, ⟨0, 3⟩] ∧ g.outArcs 2 = .ok [⟨1, 5⟩, ⟨2, 1⟩, ⟨2, 1⟩]) ∧
    ∃ error, build { numVertices := some 2 } [⟨2, 1, 5⟩, ⟨0, 1, 7⟩, ⟨2, 2, 1⟩, ⟨0, 1, 3⟩] = .error error := by
  refine ⟨⟨_, rfl, ?_⟩, ⟨_, rfl, ?_⟩, ?_⟩
  · obtain ⟨hcount, hdirected, -, hrows⟩ := (build_inputOrder { numVertices := some 4 }
      [⟨2, 1, 5⟩, ⟨0, 1, 7⟩, ⟨2, 2, 1⟩, ⟨0, 1, 3⟩]).2 _ rfl
    have hin := (((hrows rfl 1 (by decide)).1 hdirected).2)
    exact ⟨BuildOptions.counts_iff.mp hcount, ((hrows rfl 2 (by decide)).1 hdirected).1,
      hin.trans (by cbv)⟩
  · obtain ⟨-, hdirected, -, hrows⟩ := (build_inputOrder { directed := false }
      [⟨2, 1, 5⟩, ⟨0, 1, 7⟩, ⟨2, 2, 1⟩, ⟨0, 1, 3⟩]).2 _ rfl
    exact ⟨(hrows rfl 1 (by decide)).2 hdirected, (hrows rfl 2 (by decide)).2 hdirected⟩
  · exact (build_inputOrder { numVertices := some 2 } _).1.mpr
      (Or.inl ⟨2, rfl, ⟨2, 1, 5⟩, List.mem_cons_self, by decide⟩)

end Graph

end GraphKernels
