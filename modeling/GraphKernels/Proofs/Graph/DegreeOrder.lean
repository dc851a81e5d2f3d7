import GraphKernels.Graph.DegreeOrder
import GraphKernels.Proofs.Graph.Links

/-!
# Relabelling is an isomorphism

The ranks of an ordering of the vertices renumber them without repetitions, whatever the order is that
they are sorted by. Renaming the ends of all arcs and squishing the rows keeps which vertices are
linked, and leaves rows that ascend strictly and hold no loops, which is what the check of the rows of a
graph looks for.
-/

namespace GraphKernels

/-! ### Ranks -/

section Ranks

variable {order : List Nat} {n u v : Nat}

/-- Storing the places of a list stores the place of each of its entries. -/
theorem foldl_zipIdx_size (order : List Nat) (start : Nat) (ids : Array Nat) :
    ((order.zipIdx start).foldl (fun ids (old, rank) => ids.setIfInBounds old rank) ids).size =
      ids.size := by
  induction order generalizing start ids with
  | nil => rfl
  | cons x rest ih => rw [List.zipIdx_cons, List.foldl_cons, ih, Array.size_setIfInBounds]

/-- Each entry of a list without repetitions has its own place stored. -/
theorem foldl_zipIdx_getD (start : Nat) (ids : Array Nat) (hnodup : order.Nodup)
    (hlt : ∀ u ∈ order, u < ids.size) (hu : u ∈ order) :
    ((order.zipIdx start).foldl (fun ids (old, rank) => ids.setIfInBounds old rank) ids).getD u 0 =
      start + order.idxOf u := by
  have hkept (order : List Nat) (start : Nat) (ids : Array Nat) (hu : u ∉ order) :
      ((order.zipIdx start).foldl (fun ids (old, rank) => ids.setIfInBounds old rank) ids).getD u 0 =
        ids.getD u 0 := by
    induction order generalizing start ids with
    | nil => rfl
    | cons x rest ih =>
      rw [List.mem_cons, not_or] at hu
      rw [List.zipIdx_cons, List.foldl_cons, ih _ _ hu.2, getD_setIfInBounds_of_ne hu.1]
  induction order generalizing start ids with
  | nil => simp at hu
  | cons x rest ih =>
    rw [List.nodup_cons] at hnodup
    rw [List.zipIdx_cons, List.foldl_cons]
    by_cases heq : u = x
    · subst heq
      rw [hkept rest _ _ hnodup.1, getD_setIfInBounds_self (hlt u List.mem_cons_self),
        List.idxOf_cons_self, Nat.add_zero]
    · have hrest : u ∈ rest := (List.mem_cons.mp hu).resolve_left heq
      rw [ih _ _ hnodup.2 (fun w hw => by simpa using hlt w (List.mem_cons_of_mem x hw)) hrest,
        List.idxOf_cons_ne _ (Ne.symm heq)]
      omega

/-- The rank of a vertex is its place in the order. -/
theorem readAt_ranks (horder : order.Perm (List.range n)) (hu : u < n) :
    readAt (ranks order) u = .ok (order.idxOf u) := by
  have hlength : order.length = n := by simpa using horder.length_eq
  have hmem (v : Nat) : v ∈ order ↔ v < n := by rw [horder.mem_iff, List.mem_range]
  have hsize : u < (ranks order).size := by
    rw [ranks, foldl_zipIdx_size, Array.size_replicate]
    omega
  have hlt (v : Nat) (hv : v ∈ order) : v < (Array.replicate order.length 0).size := by
    rw [Array.size_replicate, hlength]
    exact (hmem v).mp hv
  rw [readAt_eq_getD 0 hsize, ranks, foldl_zipIdx_getD 0 _ (horder.nodup_iff.mpr List.nodup_range) hlt
    ((hmem u).mpr hu), Nat.zero_add]

/-- Ranks are vertices. -/
theorem idxOf_lt (horder : order.Perm (List.range n)) (hu : u < n) : order.idxOf u < n := by
  have hlength : order.length = n := by simpa using horder.length_eq
  rw [← hlength]
  exact List.idxOf_lt_length_of_mem (horder.mem_iff.mpr (List.mem_range.mpr hu))

/-- Different vertices have different ranks. -/
theorem idxOf_inj (horder : order.Perm (List.range n)) (hu : u < n) :
    order.idxOf u = order.idxOf v ↔ u = v :=
  List.idxOf_inj (horder.mem_iff.mpr (List.mem_range.mpr hu))

end Ranks

/-- The edge between the new names of its ends. -/
def Edge.rename (ids : Nat → Nat) (e : Edge) : Edge := ⟨ids e.source, ids e.target, e.weight⟩

namespace Graph

variable {g : Graph} {order : List Nat} {u v n : Nat}

/-- The neighbors of a vertex ascend strictly and leave out the vertex itself. -/
def Orderly (g : Graph) (u : Nat) : Prop := (g.targets u).Pairwise (· < ·) ∧ u ∉ g.targets u

/-- Whether the neighbors of a vertex are in order can be read off its row. -/
instance (g : Graph) : DecidablePred g.Orderly := fun _ => instDecidableAnd

/-- The check of a list says whether it ascends strictly and leaves out a vertex. -/
theorem sortedAndLoopFree_iff {list : List Nat} :
    sortedAndLoopFree u list = true ↔ list.Pairwise (· < ·) ∧ u ∉ list := by
  rw [sortedAndLoopFree, Bool.and_eq_true]
  apply and_congr
  · rw [← List.isChain_iff_pairwise]
    induction list with
    | nil => simp
    | cons a rest ih =>
      cases rest with
      | nil => simp
      | cons b rest =>
        rw [List.isChain_cons_cons, ← ih]
        simp
  · rw [List.all_eq_true]
    constructor
    · intro h hu
      simpa using h u hu
    · intro h v hv
      have hne : v ≠ u := fun heq => h (heq ▸ hv)
      simpa using hne

/-- The first vertex with neighbors that are not in order is found. -/
theorem firstUnsorted?_eq (hwell : g.WellFormed) :
    g.firstUnsorted? = .ok (g.vertices.find? fun u => !sortedAndLoopFree u (g.targets u)) := by
  apply findM?_eq_find?
  intro u hu
  rw [hwell.outNeighbors_eq (List.mem_range.mp hu)]
  rfl

/-- There is no such vertex when the neighbors of all vertices are in order. -/
theorem firstUnsorted?_eq_none (hwell : g.WellFormed) (horderly : ∀ u < g.numVertices, g.Orderly u) :
    g.firstUnsorted? = .ok none := by
  rw [firstUnsorted?_eq hwell, List.find?_eq_none.mpr]
  intro u hu
  have hcheck := sortedAndLoopFree_iff.mpr (horderly u (List.mem_range.mp hu))
  simp [hcheck]

/-- It is the smallest vertex with neighbors that are not in order. -/
theorem firstUnsorted?_eq_some (hwell : g.WellFormed) (hu : u < g.numVertices) (hunsorted : ¬ g.Orderly u)
    (hleast : ∀ v < u, g.Orderly v) : g.firstUnsorted? = .ok (some u) := by
  rw [firstUnsorted?_eq hwell, vertices, List.find?_range_eq_some.mpr]
  have hcheck (v : Nat) : sortedAndLoopFree v (g.targets v) = true ↔ g.Orderly v := sortedAndLoopFree_iff
  refine ⟨?_, List.mem_range.mpr hu, fun v hv => ?_⟩
  · rw [Bool.not_eq_true', ← Bool.not_eq_true, hcheck]
    exact hunsorted
  · rw [Bool.not_not, hcheck]
    exact hleast v hv

/-- In squished rows a vertex has an arc to another one exactly when there is such an edge. -/
theorem hasArc_ofEdges {edges : List Edge} (directed : Bool) (hu : u < n) :
    (ofRows n directed (.ofEdges n edges true)).HasArc u v ↔ u ≠ v ∧ ∃ w, ⟨u, v, w⟩ ∈ edges := by
  rw [hasArc_iff, ofRows, Rows.row_squished edges hu]
  constructor
  · intro ⟨w, hw⟩
    obtain ⟨harc, hne⟩ := mem_of_mem_squishRow hw
    exact ⟨Ne.symm hne, w, mem_arcsFrom.mp harc⟩
  · intro ⟨hne, w, hw⟩
    have harc : (⟨v, w⟩ : Arc) ∈ arcsFrom u edges := mem_arcsFrom.mpr hw
    obtain ⟨⟨target, weight⟩, hkept, htarget, _⟩ := exists_mem_squishRow harc (Ne.symm hne)
    cases htarget
    exact ⟨weight, hkept⟩

/-- Squished rows ascend strictly and hold no loops. -/
theorem orderly_ofEdges (edges : List Edge) (directed : Bool) (hu : u < n) :
    (ofRows n directed (.ofEdges n edges true)).Orderly u := by
  refine ⟨?_, fun hloop => ((hasArc_ofEdges directed hu).mp hloop).1 rfl⟩
  rw [targets, Rows.rowTargets, ofRows, Rows.row_squished edges hu, List.pairwise_map]
  exact squishRow_pairwise _ _

/-- The graph with its vertices renamed by their places in an order. -/
def renamed (g : Graph) (order : List Nat) : Graph :=
  ofRows g.numVertices false (.ofEdges g.numVertices (g.edges.map (.rename (order.idxOf ·))) true)

/-- The edges of a graph join vertices. -/
theorem edge_lt (hwell : g.WellFormed) {e : Edge} (he : e ∈ g.edges) :
    e.source < g.numVertices ∧ e.target < g.numVertices := by
  obtain ⟨hsource, harc⟩ := hwell.forward.mem_edges.mp he
  exact ⟨hsource, hwell.forward.row_target_lt harc⟩

/-- The vertices are ranked by the numbers of their targets. -/
theorem degreeRanking_eq (hwell : g.WellFormed) : g.degreeRanking = .ok (g.vertices.mergeSort
    (degreeOrder (g.vertices.map fun u => (g.targets u).length).toArray)) := by
  rw [degreeRanking, hwell.outDegrees_eq]
  rfl

/-- Relabelling renames the vertices by their places in the ranking. -/
theorem renameByDegree_of_ranking (hwell : g.WellFormed) (hundirected : g.directed = false)
    (hranking : g.degreeRanking = .ok order) (horder : order.Perm (List.range g.numVertices)) :
    g.renameByDegree = .ok (g.renamed order) := by
  have hedge (e : Edge) (he : e ∈ g.edges) : (do
      return ⟨← (readAt (ranks order) e.source).mapError Failure.fault,
        ← (readAt (ranks order) e.target).mapError Failure.fault, e.weight⟩ : Except Failure Edge) =
      .ok (e.rename (order.idxOf ·)) := by
    obtain ⟨hsource, htarget⟩ := edge_lt hwell he
    rw [readAt_ranks horder hsource, readAt_ranks horder htarget]
    rfl
  simp only [renameByDegree, hundirected, hranking]
  change (do
    let edges ← g.edges.mapM _
    return ofRows g.numVertices false (.ofEdges g.numVertices edges true) : Except Failure Graph) = _
  rw [mapM_eq_map hedge]
  rfl

/-- Relabelling renames the vertices by their places in some order. -/
theorem renameByDegree_eq (hwell : g.WellFormed) (hundirected : g.directed = false) :
    ∃ order, order.Perm (List.range g.numVertices) ∧ g.renameByDegree = .ok (g.renamed order) := by
  have horder := List.mergeSort_perm g.vertices
    (degreeOrder (g.vertices.map fun u => (g.targets u).length).toArray)
  exact ⟨_, horder, renameByDegree_of_ranking hwell hundirected (degreeRanking_eq hwell) horder⟩

/-- A renamed graph is well formed. -/
theorem wellFormed_renamed (hwell : g.WellFormed) (horder : order.Perm (List.range g.numVertices)) :
    (g.renamed order).WellFormed := by
  apply wellFormed_ofRows
  apply Rows.compressed_ofEdges
  intro renamed hrenamed
  obtain ⟨e, he, rfl⟩ := List.mem_map.mp hrenamed
  exact idxOf_lt horder (edge_lt hwell he).2

/-- New names have an arc exactly when the old ones have one and differ. -/
theorem hasArc_renamed (hwell : g.WellFormed) (horder : order.Perm (List.range g.numVertices))
    (hu : u < g.numVertices) :
    (g.renamed order).HasArc (order.idxOf u) (order.idxOf v) ↔ u ≠ v ∧ g.HasArc u v := by
  rw [renamed, hasArc_ofEdges _ (idxOf_lt horder hu), ne_eq, idxOf_inj horder hu, hasArc_iff]
  apply and_congr_right'
  constructor
  · intro ⟨w, hw⟩
    obtain ⟨e, he, heq⟩ := List.mem_map.mp hw
    obtain ⟨hsource, htarget⟩ := edge_lt hwell he
    rw [Edge.rename, Edge.mk.injEq] at heq
    refine ⟨e.weight, ?_⟩
    rw [← (idxOf_inj horder hsource).mp heq.1, ← (idxOf_inj horder htarget).mp heq.2.1]
    exact (hwell.forward.mem_edges.mp he).2
  · intro ⟨w, hw⟩
    have he : (⟨u, v, w⟩ : Edge) ∈ g.edges := hwell.forward.mem_edges.mpr ⟨hu, hw⟩
    exact ⟨w, List.mem_map.mpr ⟨_, he, rfl⟩⟩

/-- The renaming of the vertices. -/
noncomputable def rankEquiv (horder : order.Perm (List.range g.numVertices)) :
    Fin g.numVertices ≃ Fin (g.renamed order).numVertices :=
  Equiv.ofBijective (fun u => ⟨order.idxOf u.val, idxOf_lt horder u.isLt⟩)
    (Finite.injective_iff_bijective.mp fun u _ heq =>
      Fin.ext ((idxOf_inj horder u.isLt).mp (congrArg Fin.val heq)))

/-- Renaming keeps the links. -/
noncomputable def linksIso (hwell : g.WellFormed) (horder : order.Perm (List.range g.numVertices)) :
    g.links ≃g (g.renamed order).links where
  toEquiv := rankEquiv horder
  map_rel_iff' {u v} := by
    rw [links_adj, links_adj, (rankEquiv horder).injective.ne_iff]
    have hiff (u v : Fin g.numVertices) : (g.renamed order).HasArc (rankEquiv horder u) (rankEquiv horder v) ↔
        u.val ≠ v.val ∧ g.HasArc u v := hasArc_renamed hwell horder u.isLt
    rw [hiff, hiff]
    constructor
    · intro ⟨hne, harc⟩
      exact ⟨hne, harc.imp And.right And.right⟩
    · intro ⟨hne, harc⟩
      have hval : u.val ≠ v.val := fun heq => hne (Fin.ext heq)
      exact ⟨hne, harc.imp (fun h => ⟨hval, h⟩) (fun h => ⟨hval.symm, h⟩)⟩

/-- Arcs that go both ways still do after renaming. -/
theorem hasArc_renamed_symm (hwell : g.WellFormed) (horder : order.Perm (List.range g.numVertices))
    (hsymm : ∀ u v, g.HasArc u v → g.HasArc v u) :
    ∀ u v, (g.renamed order).HasArc u v → (g.renamed order).HasArc v u := by
  intro u v harc
  have hwell' := wellFormed_renamed hwell horder
  obtain ⟨x, hx⟩ := (rankEquiv horder).surjective ⟨u, hwell'.lt_of_hasArc harc⟩
  obtain ⟨y, hy⟩ := (rankEquiv horder).surjective ⟨v, hwell'.lt_of_hasArc' harc⟩
  have hu : order.idxOf x.val = u := congrArg Fin.val hx
  have hv : order.idxOf y.val = v := congrArg Fin.val hy
  rw [← hu, ← hv, hasArc_renamed hwell horder x.isLt] at harc
  rw [← hu, ← hv, hasArc_renamed hwell horder y.isLt]
  exact ⟨Ne.symm harc.1, hsymm _ _ harc.2⟩

end Graph

end GraphKernels
