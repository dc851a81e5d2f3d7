import GraphKernels.Proofs.Graph.DegreeOrder

/-!
# Ranks by degree

Relabelling names a vertex by the number of vertices that come before it, by descending degree and then by
ascending id. The result has the lightest arc between any two different vertices that are joined, so a graph
whose rows are in order is kept up to the names. The names follow the degrees of the graph that is relabelled;
a degree of the result counts the other vertices that a vertex has arcs to, and so it leaves out loops and
counts parallel arcs once. Both orders are the same for graphs whose rows are in order.
-/

namespace GraphKernels

/-! ### Ranks -/

/-- A vertex comes before another one when its degree is larger, or the same and its id smaller. -/
def Outranks (degree : Nat → Nat) (u v : Nat) : Prop :=
  degree v < degree u ∨ degree u = degree v ∧ u < v

/-- Which of two vertices comes first can be read off their degrees. -/
instance (degree : Nat → Nat) : DecidableRel (Outranks degree) := fun _ _ => instDecidableOr

/-- The number of vertices that come before one. -/
def rankByDegree (degree : Nat → Nat) (n u : Nat) : Nat := (List.range n).countP (Outranks degree · u)

section Ranks

variable {degree : Nat → Nat} {order : List Nat} {n u v : Nat}

/-- No two vertices come before each other. -/
theorem Outranks.asymm (h : Outranks degree u v) : ¬ Outranks degree v u := by
  rw [Outranks] at *
  omega

/-- The place of a vertex in a ranking is the number of vertices that come before it. -/
theorem idxOf_eq_countP (h : order.Pairwise (Outranks degree)) (hu : u ∈ order) :
    order.idxOf u = order.countP (Outranks degree · u) := by
  induction order with
  | nil => simp at hu
  | cons first rest ih =>
    rw [List.pairwise_cons] at h
    rw [List.countP_cons]
    by_cases heq : first = u
    · subst heq
      have hnone : rest.countP (Outranks degree · first) = 0 := by
        rw [List.countP_eq_zero]
        intro v hv
        simpa using (h.1 v hv).asymm
      have hself : ¬ Outranks degree first first := fun hself => hself.asymm hself
      simp [hnone, hself]
    · have hrest : u ∈ rest := (List.mem_cons.mp hu).resolve_left (Ne.symm heq)
      rw [List.idxOf_cons_ne _ heq, ih h.2 hrest, if_pos (decide_eq_true (h.1 u hrest))]

/-- The place of a vertex in a ranking of all vertices is its rank. -/
theorem idxOf_eq_rankByDegree (horder : order.Perm (List.range n)) (h : order.Pairwise (Outranks degree))
    (hu : u < n) : order.idxOf u = rankByDegree degree n u := by
  rw [idxOf_eq_countP h (horder.mem_iff.mpr (List.mem_range.mpr hu)), rankByDegree, horder.countP_eq]

/-- Vertices that come first have smaller places in a ranking. -/
theorem idxOf_lt_idxOf_iff (h : order.Pairwise (Outranks degree)) (hu : u ∈ order) (hv : v ∈ order) :
    order.idxOf u < order.idxOf v ↔ Outranks degree u v := by
  have hlt {x y : Nat} (hx : x ∈ order) (hy : y ∈ order) (hxy : order.idxOf x < order.idxOf y) :
      Outranks degree x y := by
    have := List.pairwise_iff_getElem.mp h _ _ (List.idxOf_lt_length_of_mem hx)
      (List.idxOf_lt_length_of_mem hy) hxy
    rwa [List.getElem_idxOf, List.getElem_idxOf] at this
  refine ⟨hlt hu hv, fun hfirst => ?_⟩
  by_contra hle
  rcases Nat.lt_or_eq_of_le (Nat.le_of_not_lt hle) with hgt | heq
  · exact hfirst.asymm (hlt hv hu hgt)
  · rw [List.idxOf_inj hv] at heq
    subst heq
    exact hfirst.asymm hfirst

/-- Different places name every vertex once. -/
theorem idxOf_bijOn (horder : order.Perm (List.range n)) :
    Set.BijOn (order.idxOf ·) (Set.Iio n) (Set.Iio n) := by
  refine ⟨fun u hu => idxOf_lt horder hu, fun u hu v _ heq => (idxOf_inj horder hu).mp heq, fun i hi => ?_⟩
  have hlength : i < order.length := by simpa [horder.length_eq] using hi
  refine ⟨order[i], ?_, ?_⟩
  · exact List.mem_range.mp (horder.mem_iff.mp (List.getElem_mem hlength))
  · exact (horder.nodup_iff.mpr List.nodup_range).idxOf_getElem i hlength

end Ranks

namespace Graph

variable {g next : Graph} {order : List Nat} {u v : Nat}

/-- Sorting by degree puts vertices first that come first. -/
theorem pairwise_degreeRanking (hwell : g.WellFormed) (hranking : g.degreeRanking = .ok order) :
    order.Perm (List.range g.numVertices) ∧ order.Pairwise (Outranks fun u => (g.targets u).length) := by
  rw [degreeRanking_eq hwell, Except.ok.injEq] at hranking
  generalize hdegrees : (g.vertices.map fun u => (g.targets u).length).toArray = degrees at hranking
  have horder : order.Perm (List.range g.numVertices) := hranking ▸ List.mergeSort_perm _ _
  have hdegree (u : Nat) (hu : u ∈ order) : degrees.getD u 0 = (g.targets u).length := by
    have hlt := List.mem_range.mp (horder.mem_iff.mp hu)
    simp [← hdegrees, vertices, hlt]
  have hsorted : order.Pairwise fun a b => degreeOrder degrees a b = true := by
    rw [← hranking]
    apply List.pairwise_mergeSort
    · intro a b c
      simp only [degreeOrder, Bool.or_eq_true, Bool.and_eq_true, decide_eq_true_eq, beq_iff_eq]
      omega
    · intro a b
      simp only [degreeOrder, Bool.or_eq_true, Bool.and_eq_true, decide_eq_true_eq, beq_iff_eq]
      omega
  refine ⟨horder, ?_⟩
  apply (hsorted.and (horder.nodup_iff.mpr List.nodup_range)).imp_of_mem
  intro a b ha hb hab
  obtain ⟨hle, hne⟩ := hab
  simp only [degreeOrder, hdegree a ha, hdegree b hb, Bool.or_eq_true, Bool.and_eq_true, decide_eq_true_eq,
    beq_iff_eq] at hle
  rw [Outranks]
  omega

/-- Relabelling names the vertices by their ranks. -/
theorem renameByDegree_ranked (hwell : g.WellFormed) (hundirected : g.directed = false) :
    ∃ order, g.renameByDegree = .ok (g.renamed order) ∧ order.Perm (List.range g.numVertices) ∧
      order.Pairwise (Outranks fun u => (g.targets u).length) := by
  obtain ⟨horder, hfirst⟩ := pairwise_degreeRanking hwell (degreeRanking_eq hwell)
  exact ⟨_, renameByDegree_of_ranking hwell hundirected (degreeRanking_eq hwell) horder, horder, hfirst⟩

/-- An undirected graph with new names for the vertices of another one. Its arcs are the lightest ones between
any two different vertices that are joined, each listed once, in rows that ascend strictly. -/
structure RenamedBy (ids : Nat → Nat) (g next : Graph) : Prop where
  undirected : next.directed = false
  numVertices_eq : next.numVertices = g.numVertices
  permutes : Set.BijOn ids (Set.Iio g.numVertices) (Set.Iio g.numVertices)
  edges_iff : ∀ e, e ∈ next.edges ↔ ∃ u v, u ≠ v ∧ e.source = ids u ∧ e.target = ids v ∧
    IsLeast {w | ⟨u, v, w⟩ ∈ g.edges} e.weight
  rows : ∀ u < next.numVertices, next.outArcs u = .ok (arcsFrom u next.edges)
  ascends : ∀ u < next.numVertices, ((arcsFrom u next.edges).map Arc.target).Pairwise (· < ·)

/-- The edge between new names is one of the renamed ones when there is one between the old names. -/
theorem mem_map_rename (hwell : g.WellFormed) (horder : order.Perm (List.range g.numVertices))
    (hu : u < g.numVertices) (hv : v < g.numVertices) {w : UInt32} :
    ⟨order.idxOf u, order.idxOf v, w⟩ ∈ g.edges.map (Edge.rename (order.idxOf ·)) ↔ ⟨u, v, w⟩ ∈ g.edges := by
  rw [List.mem_map]
  constructor
  · intro ⟨⟨x, y, w'⟩, he, heq⟩
    obtain ⟨hx, hy⟩ := edge_lt hwell he
    rw [Edge.rename, Edge.mk.injEq, idxOf_inj horder hx, idxOf_inj horder hy] at heq
    obtain ⟨rfl, rfl, rfl⟩ := heq
    exact he
  · intro he
    exact ⟨_, he, rfl⟩

/-- A renamed graph has the lightest arc between any two different vertices that are joined. -/
theorem mem_edges_renamed (hwell : g.WellFormed) (horder : order.Perm (List.range g.numVertices)) {e : Edge} :
    e ∈ (g.renamed order).edges ↔ ∃ u v, u ≠ v ∧ e.source = order.idxOf u ∧ e.target = order.idxOf v ∧
      IsLeast {w | ⟨u, v, w⟩ ∈ g.edges} e.weight := by
  have hrow {u : Nat} (hu : u < g.numVertices) : (g.renamed order).forward.row u =
      squishRow u (arcsFrom u (g.edges.map (.rename (order.idxOf ·)))) := Rows.row_squished _ hu
  obtain ⟨source, target, weight⟩ := e
  rw [edges, (wellFormed_renamed hwell horder).forward.mem_edges]
  constructor
  · rintro ⟨hsource, harc⟩
    rw [hrow hsource, mem_squishRow, mem_arcsFrom] at harc
    obtain ⟨⟨hmem, hloop⟩, hleast⟩ := harc
    obtain ⟨⟨u, v, w⟩, he, heq⟩ := List.mem_map.mp hmem
    obtain ⟨hu, hv⟩ := edge_lt hwell he
    cases heq
    refine ⟨u, v, fun hne => hloop (hne ▸ rfl), rfl, rfl, he, fun w' hw' => ?_⟩
    exact hleast ⟨order.idxOf v, w'⟩ (mem_arcsFrom.mpr ((mem_map_rename hwell horder hu hv).mpr hw')) rfl
  · rintro ⟨u, v, hne, hsource, htarget, he, hleast⟩
    obtain ⟨hu, hv⟩ := edge_lt hwell he
    obtain rfl : source = order.idxOf u := hsource
    obtain rfl : target = order.idxOf v := htarget
    refine ⟨idxOf_lt horder hu, ?_⟩
    change ⟨order.idxOf v, weight⟩ ∈ (g.renamed order).forward.row (order.idxOf u)
    rw [hrow (idxOf_lt horder hu), mem_squishRow, mem_arcsFrom]
    refine ⟨⟨(mem_map_rename hwell horder hu hv).mpr he, ?_⟩, fun b hb htarget => ?_⟩
    · exact fun hloop => hne ((idxOf_inj horder hv).mp hloop).symm
    · obtain ⟨target, w⟩ := b
      cases htarget
      exact hleast ((mem_map_rename hwell horder hu hv).mp (mem_arcsFrom.mp hb))

/-- The rows of a renamed graph are in order. -/
theorem orderly_renamed (g : Graph) (order : List Nat) (hu : u < g.numVertices) :
    (g.renamed order).Orderly u := orderly_ofEdges _ false hu

/-- A renamed graph has the arcs of the graph between the new names. -/
theorem renamedBy_renamed {ids : Nat → Nat} (hwell : g.WellFormed)
    (horder : order.Perm (List.range g.numVertices)) (hids : ∀ u < g.numVertices, order.idxOf u = ids u) :
    RenamedBy ids g (g.renamed order) where
  undirected := rfl
  numVertices_eq := rfl
  permutes := (idxOf_bijOn horder).congr fun u hu => hids u hu
  edges_iff e := by
    rw [mem_edges_renamed hwell horder]
    refine exists_congr fun u => exists_congr fun v => and_congr_right' ?_
    rw [← and_assoc, ← and_assoc]
    apply and_congr_left
    intro hleast
    obtain ⟨hu, hv⟩ := edge_lt hwell hleast.1
    rw [hids u hu, hids v hv]
  rows u hu := by
    have hwell' := wellFormed_renamed hwell horder
    rw [hwell'.outArcs_eq hu, edges, hwell'.forward.arcsFrom_edges hu]
  ascends u hu := by
    rw [edges, (wellFormed_renamed hwell horder).forward.arcsFrom_edges hu]
    exact (orderly_renamed g order hu).1

/-- The targets of a row that is in order ascend strictly. -/
theorem Orderly.row_pairwise (h : g.Orderly u) : (g.forward.row u).Pairwise fun a b => a.target < b.target :=
  List.pairwise_map.mp h.1

/-- A graph whose rows are in order lists each arc once. -/
theorem nodup_edges (hwell : g.WellFormed) (horderly : ∀ u < g.numVertices, g.Orderly u) : g.edges.Nodup := by
  rw [List.nodup_iff_count_le_one]
  intro e
  by_cases hsource : e.source < g.numVertices
  · have hnodup : (g.forward.row e.source).Nodup :=
      (horderly _ hsource).row_pairwise.imp fun hlt heq => absurd (congrArg Arc.target heq) (Nat.ne_of_lt hlt)
    have hcount := hwell.forward.count_edges hsource e.arc
    exact Nat.le_trans (Nat.le_of_eq hcount) (List.nodup_iff_count_le_one.mp hnodup _)
  · rw [List.count_eq_zero_of_not_mem fun he => hsource (edge_lt hwell he).1]
    exact Nat.zero_le 1

/-- A graph whose rows are in order has one arc at most between two vertices, and none from a vertex to itself. -/
theorem isLeast_weight_iff (hwell : g.WellFormed) (horderly : ∀ u < g.numVertices, g.Orderly u) {w : UInt32} :
    u ≠ v ∧ IsLeast {w | ⟨u, v, w⟩ ∈ g.edges} w ↔ ⟨u, v, w⟩ ∈ g.edges := by
  constructor
  · intro ⟨_, hleast⟩
    exact hleast.1
  · intro he
    have hu := (edge_lt hwell he).1
    have harc := (hwell.forward.mem_edges.mp he).2
    refine ⟨fun hloop => (horderly u hu).2 ?_, he, fun w' he' => ?_⟩
    · have htarget : v ∈ g.targets u := List.mem_map_of_mem harc
      exact hloop ▸ htarget
    · have harc' := (hwell.forward.mem_edges.mp he').2
      have heq := eq_of_target_eq (horderly u hu).row_pairwise harc harc' rfl
      exact UInt32.le_of_eq (congrArg Arc.weight heq)

/-- When rows are in order, renaming keeps all arcs. -/
theorem edges_renamed_perm (hwell : g.WellFormed) (horder : order.Perm (List.range g.numVertices))
    (horderly : ∀ u < g.numVertices, g.Orderly u) :
    (g.renamed order).edges.Perm (g.edges.map (.rename (order.idxOf ·))) := by
  have hinj : ∀ e ∈ g.edges, ∀ f ∈ g.edges, e.rename (order.idxOf ·) = f.rename (order.idxOf ·) → e = f := by
    intro e he f hf heq
    obtain ⟨hsource, htarget⟩ := edge_lt hwell he
    rw [Edge.rename, Edge.rename, Edge.mk.injEq, idxOf_inj horder hsource, idxOf_inj horder htarget] at heq
    exact Edge.mk.injEq .. ▸ heq
  have hnodup := nodup_edges (wellFormed_renamed hwell horder) fun u hu => orderly_renamed g order hu
  rw [List.perm_ext_iff_of_nodup hnodup ((nodup_edges hwell horderly).map_on hinj)]
  intro e
  rw [mem_edges_renamed hwell horder, List.mem_map]
  constructor
  · rintro ⟨u, v, _, hsource, htarget, hleast⟩
    refine ⟨_, hleast.1, ?_⟩
    rw [Edge.rename, ← hsource, ← htarget]
  · rintro ⟨f, hf, heq⟩
    obtain ⟨hne, hleast⟩ := (isLeast_weight_iff hwell horderly).mpr hf
    subst heq
    exact ⟨_, _, hne, rfl, rfl, hleast⟩

/-- A check that finds no vertex out of order finds all of them in order. -/
theorem orderly_of_firstUnsorted? (hwell : g.WellFormed) (h : g.firstUnsorted? = .ok none)
    (hu : u < g.numVertices) : g.Orderly u := by
  rw [firstUnsorted?_eq hwell, Except.ok.injEq, List.find?_eq_none] at h
  have hcheck := h u (List.mem_range.mpr hu)
  rw [Bool.not_eq_true, Bool.not_eq_false'] at hcheck
  exact sortedAndLoopFree_iff.mp hcheck

/-- The rows of a squished graph are in order. -/
theorem orderly_build {o : BuildOptions} {edges : List Edge} (hsquish : o.squish = true)
    (hbuild : build o edges = .ok g) (hu : u < g.numVertices) : g.Orderly u := by
  obtain ⟨n, _, rfl⟩ := build_spec hbuild
  rw [hsquish]
  exact orderly_ofEdges _ o.directed hu

/-- Relabelling an undirected graph gives each vertex its rank by degree as its new name, keeps the vertex count
and has exactly the lightest arcs between different vertices. When the rows of the graph are in order, these are
all of its arcs. -/
theorem renameByDegree_renames {o : BuildOptions} {edges : List Edge} (hundirected : o.directed = false)
    (hbuild : build o edges = .ok g) :
    ∃ degree next, (∀ u < g.numVertices, g.outDegree u = .ok (degree u)) ∧ g.renameByDegree = .ok next ∧
      RenamedBy (rankByDegree degree g.numVertices) g next ∧
      (g.firstUnsorted? = .ok none →
        next.edges.Perm (g.edges.map (.rename (rankByDegree degree g.numVertices))) ∧
        next.numArcs = g.numArcs) := by
  have hwell := wellFormed_build hbuild
  obtain ⟨order, hrenamed, horder, hranked⟩ :=
    renameByDegree_ranked hwell ((directed_build hbuild).trans hundirected)
  have hids (u : Nat) (hu : u < g.numVertices) := idxOf_eq_rankByDegree horder hranked hu
  refine ⟨_, _, fun u hu => hwell.outDegree_eq hu, hrenamed, renamedBy_renamed hwell horder hids,
    fun hsorted => ?_⟩
  have hperm := edges_renamed_perm hwell horder fun u hu => orderly_of_firstUnsorted? hwell hsorted hu
  have hrename : g.edges.map (Edge.rename (order.idxOf ·)) =
      g.edges.map (Edge.rename (rankByDegree (fun u => (g.targets u).length) g.numVertices)) := by
    apply List.map_congr_left
    intro e he
    obtain ⟨hsource, htarget⟩ := edge_lt hwell he
    rw [Edge.rename, Edge.rename, hids _ hsource, hids _ htarget]
  refine ⟨hrename ▸ hperm, ?_⟩
  rw [← (wellFormed_renamed hwell horder).length_edges, ← hwell.length_edges, hperm.length_eq, List.length_map]

/-- A graph with a loop and parallel arcs of different weights, whose last two vertices have more arcs than the
first one. -/
theorem renameByDegree_renames_parallel :
    ∃ g degree next, build { directed := false } [⟨0, 1, 5⟩, ⟨1, 2, 4⟩, ⟨2, 1, 3⟩, ⟨1, 1, 9⟩] = .ok g ∧
      (∀ u < g.numVertices, g.outDegree u = .ok (degree u)) ∧ g.renameByDegree = .ok next ∧
      RenamedBy (rankByDegree degree 3) g next ∧
      (List.range 3).map (rankByDegree degree 3) = [2, 0, 1] ∧
      next.edges = [⟨0, 1, 3⟩, ⟨0, 2, 5⟩, ⟨1, 0, 3⟩, ⟨2, 0, 5⟩] := by
  obtain ⟨g, hbuild, hdegrees, hnext⟩ : ∃ g,
      build { directed := false } [⟨0, 1, 5⟩, ⟨1, 2, 4⟩, ⟨2, 1, 3⟩, ⟨1, 1, 9⟩] = .ok g ∧
      (g.outDegree 0 = .ok 1 ∧ g.outDegree 1 = .ok 5 ∧ g.outDegree 2 = .ok 2 ∧ g.numVertices = 3) ∧
      g.renameByDegree.map edges = .ok [⟨0, 1, 3⟩, ⟨0, 2, 5⟩, ⟨1, 0, 3⟩, ⟨2, 0, 5⟩] :=
    ⟨_, rfl, by decide, by cbv⟩
  obtain ⟨degree, next, hdegree, hrenamed, hrenames, _⟩ := renameByDegree_renames rfl hbuild
  obtain ⟨h0, h1, h2, hcount⟩ := hdegrees
  have hdegree0 : degree 0 = 1 := Except.ok.inj ((hdegree 0 (by omega)).symm.trans h0)
  have hdegree1 : degree 1 = 5 := Except.ok.inj ((hdegree 1 (by omega)).symm.trans h1)
  have hdegree2 : degree 2 = 2 := Except.ok.inj ((hdegree 2 (by omega)).symm.trans h2)
  refine ⟨g, degree, next, hbuild, hdegree, hrenamed, hcount ▸ hrenames, ?_, ?_⟩
  · simp [rankByDegree, List.range_succ, Outranks, hdegree0, hdegree1, hdegree2]
  · rw [hrenamed] at hnext
    exact Except.ok.inj hnext

/-! ### Degrees after relabelling -/

/-- No vertex has more out-arcs than one with a smaller id. -/
def Descending (g : Graph) : Prop := ∀ u v, u < v → v < g.numVertices →
  ∃ d d', g.outDegree u = .ok d ∧ g.outDegree v = .ok d' ∧ d' ≤ d

/-- The other vertices that a vertex has arcs to. -/
def otherTargets (g : Graph) (u : Nat) : Finset Nat :=
  (Finset.range g.numVertices).filter fun v => u ≠ v ∧ g.HasArc u v

/-- A row that is in order lists the other vertices that its vertex has arcs to. -/
theorem Orderly.card_otherTargets (hwell : g.WellFormed) (h : g.Orderly u) :
    (g.otherTargets u).card = (g.targets u).length := by
  rw [← List.toFinset_card_of_nodup (h.1.imp Nat.ne_of_lt)]
  congr 1
  ext v
  rw [otherTargets, Finset.mem_filter, Finset.mem_range, List.mem_toFinset]
  constructor
  · intro ⟨_, _, harc⟩
    exact harc
  · intro harc
    exact ⟨hwell.lt_of_hasArc' harc, fun heq => h.2 (heq ▸ harc), harc⟩

/-- A vertex of a renamed graph has as many arcs as there are other vertices that it had arcs to. -/
theorem card_targets_renamed (hwell : g.WellFormed) (horder : order.Perm (List.range g.numVertices))
    (hu : u < g.numVertices) :
    ((g.renamed order).targets (order.idxOf u)).length = (g.otherTargets u).card := by
  have hwell' := wellFormed_renamed hwell horder
  have hinj : Set.InjOn (order.idxOf ·) (g.otherTargets u) := by
    intro v hv w _ heq
    exact (idxOf_inj horder (Finset.mem_range.mp (Finset.mem_filter.mp hv).1)).mp heq
  have himage : ((g.renamed order).targets (order.idxOf u)).toFinset =
      (g.otherTargets u).image (order.idxOf ·) := by
    ext x
    rw [List.mem_toFinset, Finset.mem_image]
    constructor
    · intro (harc : (g.renamed order).HasArc (order.idxOf u) x)
      obtain ⟨v, hv, rfl⟩ := (idxOf_bijOn horder).surjOn (hwell'.lt_of_hasArc' harc)
      have hold := (hasArc_renamed hwell horder hu).mp harc
      exact ⟨v, Finset.mem_filter.mpr ⟨Finset.mem_range.mpr hv, hold⟩, rfl⟩
    · intro ⟨v, hv, heq⟩
      subst heq
      exact (hasArc_renamed hwell horder hu).mpr (Finset.mem_filter.mp hv).2
  rw [← Finset.card_image_of_injOn hinj, ← himage,
    List.toFinset_card_of_nodup ((orderly_renamed g order (idxOf_lt horder hu)).1.imp Nat.ne_of_lt)]

/-- The out-degrees of a renamed graph. -/
theorem outDegree_renamed (hwell : g.WellFormed) (horder : order.Perm (List.range g.numVertices))
    (hu : u < g.numVertices) :
    (g.renamed order).outDegree (order.idxOf u) = .ok (g.otherTargets u).card := by
  rw [(wellFormed_renamed hwell horder).outDegree_eq (idxOf_lt horder hu), card_targets_renamed hwell horder hu]

/-- The degrees of a ranked graph descend exactly when vertices that come first have arcs to no fewer other
vertices. -/
theorem descending_renamed_iff {degree : Nat → Nat} (hwell : g.WellFormed)
    (horder : order.Perm (List.range g.numVertices)) (hranked : order.Pairwise (Outranks degree)) :
    (g.renamed order).Descending ↔ ∀ u < g.numVertices, ∀ v < g.numVertices, Outranks degree u v →
      (g.otherTargets v).card ≤ (g.otherTargets u).card := by
  have hmem {u : Nat} (hu : u < g.numVertices) : u ∈ order := horder.mem_iff.mpr (List.mem_range.mpr hu)
  constructor
  · intro h u hu v hv hfirst
    have hlt := (idxOf_lt_idxOf_iff hranked (hmem hu) (hmem hv)).mpr hfirst
    obtain ⟨d, d', hd, hd', hle⟩ := h _ _ hlt (idxOf_lt horder hv)
    cases (outDegree_renamed hwell horder hu).symm.trans hd
    cases (outDegree_renamed hwell horder hv).symm.trans hd'
    exact hle
  · intro h x y hlt hy
    obtain ⟨u, hu, rfl⟩ := (idxOf_bijOn horder).surjOn (Nat.lt_trans hlt hy)
    obtain ⟨v, hv, rfl⟩ := (idxOf_bijOn horder).surjOn hy
    refine ⟨_, _, outDegree_renamed hwell horder hu, outDegree_renamed hwell horder hv, h u hu v hv ?_⟩
    exact (idxOf_lt_idxOf_iff hranked (hmem hu) (hmem hv)).mp hlt

/-- When rows are in order, the degrees of a ranked graph descend. -/
theorem descending_renamed (hwell : g.WellFormed) (horder : order.Perm (List.range g.numVertices))
    (hranked : order.Pairwise (Outranks fun u => (g.targets u).length))
    (horderly : ∀ u < g.numVertices, g.Orderly u) : (g.renamed order).Descending := by
  rw [descending_renamed_iff hwell horder hranked]
  intro u hu v hv hfirst
  rw [(horderly u hu).card_otherTargets hwell, (horderly v hv).card_otherTargets hwell]
  rw [Outranks] at hfirst
  omega

/-- Relabelling an undirected graph names vertices by descending degree in that graph, and a vertex of the result
has as many arcs as there are other vertices that it had arcs to. The degrees of the result descend exactly when
vertices that come first have arcs to no fewer other vertices, and so they do for a squished graph. -/
theorem renameByDegree_degrees {o : BuildOptions} {edges : List Edge} (hundirected : o.directed = false)
    (hbuild : build o edges = .ok g) :
    ∃ degree next, (∀ u < g.numVertices, g.outDegree u = .ok (degree u)) ∧ g.renameByDegree = .ok next ∧
      (∀ u < g.numVertices, next.outDegree (rankByDegree degree g.numVertices u) = .ok (g.otherTargets u).card) ∧
      (∀ u < g.numVertices, ∀ v < g.numVertices,
        rankByDegree degree g.numVertices u < rankByDegree degree g.numVertices v ↔ Outranks degree u v) ∧
      (next.Descending ↔ ∀ u < g.numVertices, ∀ v < g.numVertices, Outranks degree u v →
        (g.otherTargets v).card ≤ (g.otherTargets u).card) ∧
      (o.squish = true → next.Descending) := by
  have hwell := wellFormed_build hbuild
  obtain ⟨order, hrenamed, horder, hranked⟩ :=
    renameByDegree_ranked hwell ((directed_build hbuild).trans hundirected)
  have hids (u : Nat) (hu : u < g.numVertices) := idxOf_eq_rankByDegree horder hranked hu
  have hmem {u : Nat} (hu : u < g.numVertices) : u ∈ order := horder.mem_iff.mpr (List.mem_range.mpr hu)
  refine ⟨_, _, fun u hu => hwell.outDegree_eq hu, hrenamed, fun u hu => ?_, fun u hu v hv => ?_,
    descending_renamed_iff hwell horder hranked, fun hsquish => ?_⟩
  · rw [← hids u hu]
    exact outDegree_renamed hwell horder hu
  · rw [← hids u hu, ← hids v hv]
    exact idxOf_lt_idxOf_iff hranked (hmem hu) (hmem hv)
  · exact descending_renamed hwell horder hranked fun u hu => orderly_build hsquish hbuild hu

/-- A star with its edges listed more than once. -/
theorem renameByDegree_degrees_star :
    ∃ g degree next,
      build { directed := false, squish := true } [⟨3, 0, 1⟩, ⟨3, 1, 1⟩, ⟨0, 3, 1⟩, ⟨3, 2, 1⟩] = .ok g ∧
      (∀ u < g.numVertices, g.outDegree u = .ok (degree u)) ∧ g.renameByDegree = .ok next ∧
      next.outDegree (rankByDegree degree g.numVertices 3) = .ok (g.otherTargets 3).card ∧
      (g.otherTargets 3).card = 3 ∧ next.Descending := by
  obtain ⟨g, hbuild, hcount, hothers⟩ : ∃ g,
      build { directed := false, squish := true } [⟨3, 0, 1⟩, ⟨3, 1, 1⟩, ⟨0, 3, 1⟩, ⟨3, 2, 1⟩] = .ok g ∧
      g.numVertices = 4 ∧ (g.otherTargets 3).card = 3 := ⟨_, rfl, rfl, by cbv⟩
  obtain ⟨degree, next, hdegree, hrenamed, hdegrees, _, _, hsquished⟩ := renameByDegree_degrees rfl hbuild
  exact ⟨g, degree, next, hbuild, hdegree, hrenamed, hdegrees 3 (by omega), hothers, hsquished rfl⟩

/-- A vertex with nothing but a loop comes before two joined vertices, and has no arc after relabelling. -/
theorem loop_ranked_first :
    ∃ g next, build { directed := false } [⟨0, 0, 1⟩, ⟨1, 2, 1⟩] = .ok g ∧ g.renameByDegree = .ok next ∧
      next.outDegree 0 = .ok 0 ∧ next.outDegree 1 = .ok 1 ∧ ¬ next.Descending := by
  obtain ⟨g, next, hbuild, hrenamed, hfirst, hsecond, hcount⟩ : ∃ g next,
      build { directed := false } [⟨0, 0, 1⟩, ⟨1, 2, 1⟩] = .ok g ∧ g.renameByDegree = .ok next ∧
      next.outDegree 0 = .ok 0 ∧ next.outDegree 1 = .ok 1 ∧ next.numVertices = 3 :=
    ⟨_, ⟨3, ⟨#[0, 0, 1, 2], #[2, 1], #[1, 1]⟩, none⟩, rfl, by cbv, rfl, rfl, rfl⟩
  refine ⟨g, next, hbuild, hrenamed, hfirst, hsecond, fun hdescending => ?_⟩
  obtain ⟨d, d', hd, hd', hle⟩ := hdescending 0 1 (by decide) (by omega)
  cases hfirst.symm.trans hd
  cases hsecond.symm.trans hd'
  exact absurd hle (by decide)

end Graph

end GraphKernels
