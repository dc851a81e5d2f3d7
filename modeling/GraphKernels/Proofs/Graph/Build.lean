import GraphKernels.Graph.Build
import GraphKernels.Proofs.Graph.EdgeRows

/-!
# Well-formed graphs

A graph is well formed when its rows are compressed, and mirrored when its in-arcs are its out-arcs
flipped. Every graph that is built from a list of edges is both: the reverse rows of a directed graph are
the transpose of its forward rows, and the rows of an undirected graph hold every edge in both
directions, squished or not.
-/

namespace GraphKernels

namespace Graph

variable {g : Graph} {u v : Nat}

/-- The targets that a vertex lists. -/
def targets (g : Graph) (u : Nat) : List Nat := g.forward.rowTargets u

/-- The sources that list a vertex, as read from the incoming rows. -/
def sources (g : Graph) (v : Nat) : List Nat := g.incoming.rowTargets v

/-- There is an arc from one vertex to another. -/
def HasArc (g : Graph) (u v : Nat) : Prop := v ∈ g.targets u

/-- Whether there is an arc can be read off the row. -/
instance (g : Graph) : DecidableRel g.HasArc := fun u v => inferInstanceAs (Decidable (v ∈ g.targets u))

/-- The rows that vertices are read from are compressed. -/
structure WellFormed (g : Graph) : Prop where
  forward : g.forward.Compressed g.numVertices
  incoming : g.incoming.Compressed g.numVertices

/-- The in-arcs of the vertices are the out-arcs flipped, each as often as it occurs. -/
def Mirrored (g : Graph) : Prop :=
  ∀ u v w, u < g.numVertices → v < g.numVertices →
    (g.incoming.row v).count ⟨u, w⟩ = (g.forward.row u).count ⟨v, w⟩

/-- There is an arc exactly when the row has one of some weight. -/
theorem hasArc_iff : g.HasArc u v ↔ ∃ w, ⟨v, w⟩ ∈ g.forward.row u := Rows.mem_rowTargets

namespace WellFormed

/-- The out-neighbors of a vertex are the targets that it lists. -/
theorem outNeighbors_eq (h : g.WellFormed) (hu : u < g.numVertices) :
    g.outNeighbors u = .ok (g.targets u) := h.forward.neighbors_eq hu

/-- The in-neighbors of a vertex are the sources that list it. -/
theorem inNeighbors_eq (h : g.WellFormed) (hv : v < g.numVertices) :
    g.inNeighbors v = .ok (g.sources v) := h.incoming.neighbors_eq hv

/-- The out-arcs of a vertex are its row. -/
theorem outArcs_eq (h : g.WellFormed) (hu : u < g.numVertices) :
    g.outArcs u = .ok (g.forward.row u) := h.forward.arcs_eq hu

/-- The in-arcs of a vertex are its row among the incoming ones. -/
theorem inArcs_eq (h : g.WellFormed) (hv : v < g.numVertices) :
    g.inArcs v = .ok (g.incoming.row v) := h.incoming.arcs_eq hv

/-- The targets of all vertices are as many as the arcs. -/
theorem sum_length_targets (h : g.WellFormed) :
    (g.vertices.map fun u => (g.targets u).length).sum = g.numArcs := by
  rw [numArcs, ← Array.length_toList, ← h.forward.flatMap_rowTargets, List.length_flatMap]
  rfl

/-- There are as many edges as arcs. -/
theorem length_edges (h : g.WellFormed) : g.edges.length = g.numArcs := by
  rw [← h.sum_length_targets, edges, Rows.edges, h.forward.count_eq, List.length_flatMap]
  simp only [List.length_map, targets, Rows.rowTargets, vertices]

/-- The out-degree of a vertex is the number of its targets. -/
theorem outDegree_eq (h : g.WellFormed) (hu : u < g.numVertices) :
    g.outDegree u = .ok (g.targets u).length := by
  rw [targets, Rows.rowTargets, List.length_map]
  exact h.forward.degree_eq hu

/-- The out-degrees of all vertices, one after the other. -/
theorem outDegrees_eq (h : g.WellFormed) :
    g.vertices.mapM g.outDegree = .ok (g.vertices.map fun u => (g.targets u).length) :=
  mapM_eq_map fun _ hu => h.outDegree_eq (List.mem_range.mp hu)

/-- Only vertices have arcs. -/
theorem lt_of_hasArc (h : g.WellFormed) (harc : g.HasArc u v) : u < g.numVertices :=
  h.forward.lt_of_mem_rowTargets harc

/-- Arcs end at vertices. -/
theorem lt_of_hasArc' (h : g.WellFormed) (harc : g.HasArc u v) : v < g.numVertices :=
  h.forward.rowTargets_lt harc

/-- Vertices are listed by vertices. -/
theorem source_lt (h : g.WellFormed) (hu : u ∈ g.sources v) : u < g.numVertices :=
  h.incoming.rowTargets_lt hu

/-- Only vertices are listed. -/
theorem lt_of_mem_sources (h : g.WellFormed) (hu : u ∈ g.sources v) : v < g.numVertices :=
  h.incoming.lt_of_mem_rowTargets hu

end WellFormed

/-- In a mirrored graph the rows that in-neighbors are read from hold the arcs flipped. -/
theorem Mirrored.mem_row_iff (h : g.Mirrored) (hwell : g.WellFormed) {w : UInt32} :
    ⟨u, w⟩ ∈ g.incoming.row v ↔ ⟨v, w⟩ ∈ g.forward.row u := by
  have hiff (hu : u < g.numVertices) (hv : v < g.numVertices) :
      ⟨u, w⟩ ∈ g.incoming.row v ↔ ⟨v, w⟩ ∈ g.forward.row u := by
    rw [← List.count_pos_iff, ← List.count_pos_iff, h u v w hu hv]
  constructor
  · intro hmem
    have hlisted : u ∈ g.sources v := Rows.mem_rowTargets.mpr ⟨w, hmem⟩
    exact (hiff (hwell.source_lt hlisted) (hwell.lt_of_mem_sources hlisted)).mp hmem
  · intro hmem
    have harc : g.HasArc u v := hasArc_iff.mpr ⟨w, hmem⟩
    exact (hiff (hwell.lt_of_hasArc harc) (hwell.lt_of_hasArc' harc)).mpr hmem

/-- In a mirrored graph the sources that list a vertex are those that have an arc to it. -/
theorem Mirrored.mem_sources_iff (h : g.Mirrored) (hwell : g.WellFormed) :
    u ∈ g.sources v ↔ g.HasArc u v := by
  rw [hasArc_iff, sources, Rows.mem_rowTargets]
  exact exists_congr fun w => h.mem_row_iff hwell

/-- In a mirrored graph a source is listed as often as it lists its target. -/
theorem Mirrored.count_sources (h : g.Mirrored) (hu : u < g.numVertices) (hv : v < g.numVertices) :
    (g.sources v).count u = (g.targets u).count v := by
  have hweights (row : List Arc) (t : Nat) : (row.map Arc.target).count t =
      ((row.filter (·.target == t)).map Arc.weight).length := by
    rw [List.length_map, ← List.countP_eq_length_filter, List.count, List.countP_map]
    rfl
  have hcount (row : List Arc) (t : Nat) (w : UInt32) :
      ((row.filter (·.target == t)).map Arc.weight).count w = row.count ⟨t, w⟩ := by
    rw [List.count, List.countP_map, List.countP_filter, List.count]
    refine List.countP_congr fun a _ => ?_
    cases a
    simp [and_comm]
  have hperm : (((g.incoming.row v).filter (·.target == u)).map Arc.weight).Perm
      (((g.forward.row u).filter (·.target == v)).map Arc.weight) := by
    rw [List.perm_iff_count]
    intro w
    rw [hcount, hcount, h u v w hu hv]
  rw [sources, targets, Rows.rowTargets, Rows.rowTargets, hweights, hweights, hperm.length_eq]

/-- An undirected graph reads in-neighbors off its forward rows. -/
theorem incoming_eq_forward (h : g.directed = false) : g.incoming = g.forward := by
  rw [directed, Option.isSome_eq_false_iff, Option.isNone_iff_eq_none] at h
  rw [incoming, h, Option.getD_none]

/-- Arcs of a mirrored undirected graph go both ways. -/
theorem Mirrored.hasArc_symm (h : g.Mirrored) (hwell : g.WellFormed) (hundirected : g.directed = false)
    (harc : g.HasArc u v) : g.HasArc v u := by
  have hmem := (h.mem_sources_iff hwell).mpr harc
  rwa [sources, incoming_eq_forward hundirected] at hmem

/-- A graph of rows has the direction that it is made with. -/
theorem directed_ofRows (n : Nat) (directed : Bool) (forward : Rows) :
    (ofRows n directed forward).directed = directed := by
  cases directed <;> rfl

/-- A graph of compressed rows is well formed. -/
theorem wellFormed_ofRows {n : Nat} {forward : Rows} (directed : Bool) (h : forward.Compressed n) :
    (ofRows n directed forward).WellFormed := by
  cases directed with
  | true => exact ⟨h, h.transpose⟩
  | false => exact ⟨h, h⟩

end Graph

/-! ### Graphs of edges -/

/-- The endpoint bound is the least vertex count that covers all endpoints. -/
theorem endpointBound_le_iff {edges : List Edge} {n : Nat} :
    endpointBound edges ≤ n ↔ ∀ e ∈ edges, e.source < n ∧ e.target < n := by
  have hfold (rest : List Edge) (bound : Nat) :
      rest.foldl (fun bound e => max bound (max e.source e.target + 1)) bound ≤ n ↔
        bound ≤ n ∧ ∀ e ∈ rest, e.source < n ∧ e.target < n := by
    induction rest generalizing bound with
    | nil => simp
    | cons first rest ih =>
      have hfirst : max bound (max first.source first.target + 1) ≤ n ↔
          bound ≤ n ∧ first.source < n ∧ first.target < n := by omega
      rw [List.foldl_cons, ih, hfirst, List.forall_mem_cons, and_assoc]
  rw [endpointBound, hfold, and_iff_right (Nat.zero_le n)]

/-- The endpoint bound covers all endpoints. -/
theorem lt_endpointBound {edges : List Edge} {e : Edge} (he : e ∈ edges) :
    e.source < endpointBound edges ∧ e.target < endpointBound edges :=
  endpointBound_le_iff.mp (Nat.le_refl _) e he

namespace BuildOptions

variable {o : BuildOptions} {edges : List Edge} {n : Nat}

/-- The vertex count is the given one, or else the least that covers all endpoints. It has to cover them and
to fit 32 bits. -/
theorem vertexCount_eq_ok_iff : o.vertexCount edges = .ok n ↔
    n = o.numVertices.getD (endpointBound edges) ∧ endpointBound edges ≤ n ∧ n ≤ maxVertices := by
  simp only [vertexCount]
  split
  · next hbound => simp; omega
  · next hbound =>
    split
    · next hmax => simp; omega
    · next hmax => simp; omega

/-- The vertex count covers all endpoints and fits 32 bits. -/
theorem vertexCount_spec (h : o.vertexCount edges = .ok n) :
    n ≤ maxVertices ∧ ∀ e ∈ edges, e.source < n ∧ e.target < n := by
  obtain ⟨_, hbound, hmax⟩ := vertexCount_eq_ok_iff.mp h
  exact ⟨hmax, endpointBound_le_iff.mp hbound⟩

/-- The listed edges join vertices. -/
theorem arcList_lt (h : o.vertexCount edges = .ok n) {e : Edge} (he : e ∈ o.arcList edges) :
    e.source < n ∧ e.target < n := by
  have hedges := (vertexCount_spec h).2
  rw [arcList] at he
  split at he
  · exact hedges e he
  · rcases List.mem_append.mp he with he | he
    · exact hedges e he
    · obtain ⟨f, hf, rfl⟩ := List.mem_map.mp he
      exact (hedges f hf).symm

/-- An undirected graph lists every edge in both directions. -/
theorem count_arcList_flip (h : o.directed = false) (e : Edge) :
    (o.arcList edges).count e.flip = (o.arcList edges).count e := by
  have hflip (f : Edge) : (edges.map Edge.flip).count f = edges.count f.flip := by
    rw [← List.count_map_of_injective edges Edge.flip Edge.flip_injective f.flip, Edge.flip_flip]
  rw [arcList, h, if_neg (by simp), List.count_append, List.count_append, hflip, hflip, Edge.flip_flip,
    Nat.add_comm]

end BuildOptions

namespace Graph

variable {o : BuildOptions} {edges : List Edge} {g : Graph}

/-- What a built graph is made of. -/
theorem build_spec (h : build o edges = .ok g) :
    ∃ n, o.vertexCount edges = .ok n ∧
      g = ofRows n o.directed (.ofEdges n (o.arcList edges) o.squish) := by
  obtain ⟨n, hn, hg⟩ := bind_eq_ok_iff.mp h
  cases hg
  exact ⟨n, hn, rfl⟩

/-- A graph is built whenever there is a vertex count for it. -/
theorem build_yields {n : Nat} (h : o.vertexCount edges = .ok n) :
    Yields (build o edges) fun g => g.directed = o.directed ∧ g.numVertices = n := by
  rw [build, h, ok_bind]
  exact .ok ⟨directed_ofRows n o.directed _, rfl⟩

/-- The rows of the listed edges are compressed. -/
theorem compressed_arcList {n : Nat} (h : o.vertexCount edges = .ok n) :
    (Rows.ofEdges n (o.arcList edges) o.squish).Compressed n :=
  Rows.compressed_ofEdges _ fun _ he => (BuildOptions.arcList_lt h he).2

/-- A built graph is well formed. -/
theorem wellFormed_build (h : build o edges = .ok g) : g.WellFormed := by
  obtain ⟨n, hn, rfl⟩ := build_spec h
  exact wellFormed_ofRows _ (compressed_arcList hn)

/-- A built graph has the direction that it is built with. -/
theorem directed_build (h : build o edges = .ok g) : g.directed = o.directed := by
  obtain ⟨n, _, rfl⟩ := build_spec h
  exact directed_ofRows n o.directed _

/-- The rows of an undirected list of edges hold every arc in both directions. -/
theorem count_row_symm (hundirected : o.directed = false) {n u v : Nat} (hu : u < n) (hv : v < n)
    (w : UInt32) :
    ((Rows.ofEdges n (o.arcList edges) o.squish).row v).count ⟨u, w⟩ =
      ((Rows.ofEdges n (o.arcList edges) o.squish).row u).count ⟨v, w⟩ := by
  have hcount (x y : Nat) (w : UInt32) : (arcsFrom y (o.arcList edges)).count ⟨x, w⟩ =
      (arcsFrom x (o.arcList edges)).count ⟨y, w⟩ := by
    rw [count_arcsFrom, count_arcsFrom]
    exact BuildOptions.count_arcList_flip hundirected ⟨x, y, w⟩
  have hmem (x y : Nat) (w : UInt32) : ⟨x, w⟩ ∈ arcsFrom y (o.arcList edges) ↔
      ⟨y, w⟩ ∈ arcsFrom x (o.arcList edges) := by
    rw [← List.count_pos_iff, ← List.count_pos_iff, hcount]
  rw [Rows.row_ofEdges _ _ hu, Rows.row_ofEdges _ _ hv]
  split
  · have hkept (x y : Nat) (h : ⟨x, w⟩ ∈ squishRow y (arcsFrom y (o.arcList edges))) :
        ⟨y, w⟩ ∈ squishRow x (arcsFrom x (o.arcList edges)) := by
      obtain ⟨⟨harc, hloop⟩, hleast⟩ := mem_squishRow.mp h
      refine mem_squishRow.mpr ⟨⟨(hmem x y w).mp harc, Ne.symm hloop⟩, fun b hb htarget => ?_⟩
      obtain ⟨target, weight⟩ := b
      cases htarget
      exact hleast ⟨x, weight⟩ ((hmem x y weight).mpr hb) rfl
    have hnodup (x y : Nat) : (squishRow x (arcsFrom x (o.arcList edges))).count ⟨y, w⟩ =
        if ⟨y, w⟩ ∈ squishRow x (arcsFrom x (o.arcList edges)) then 1 else 0 :=
      List.Nodup.count ((squishRow_pairwise _ _).imp fun hlt heq => by simp [heq] at hlt)
    rw [hnodup, hnodup]
    exact if_congr ⟨hkept u v, hkept v u⟩ rfl rfl
  · exact hcount u v w

/-- The in-arcs of a built graph are its out-arcs flipped. -/
theorem mirrored_build (h : build o edges = .ok g) : g.Mirrored := by
  obtain ⟨n, hn, rfl⟩ := build_spec h
  cases hdirected : o.directed with
  | true => exact fun u v w hu hv => (compressed_arcList hn).count_transpose hu hv w
  | false => exact fun u v w hu hv => count_row_symm hdirected hu hv w

end Graph

end GraphKernels
