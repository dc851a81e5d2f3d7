import GraphKernels.Proofs.Centrality.Sources
import GraphKernels.Proofs.Graph.Constructible
import GraphKernels.Proofs.Triangle.Corners
import GraphKernels.Proofs.Triangle.Scan

/-!
# Counting from the largest vertex counts every triangle once

A triangle is a set of three vertices that are linked pairwise. Its vertices have one descending order, and
the count goes through exactly the triples in descending order whose ends have arcs. Relabelling is an
isomorphism of the links, so it does not change the number of triangles.
-/

namespace GraphKernels

variable {g : Graph} {u v w : Nat}

namespace Graph

/-- The triangles as triples in descending order. -/
def descendingTriangles (g : Graph) : Finset (Fin g.numVertices × Fin g.numVertices × Fin g.numVertices) :=
  {t | (t.2.1 < t.1 ∧ g.HasArc t.1 t.2.1) ∧ (t.2.2 < t.2.1 ∧ g.HasArc t.2.1 t.2.2) ∧ g.HasArc t.1 t.2.2}

/-- A triple is a triangle in descending order when its vertices descend and have arcs. -/
theorem mem_descendingTriangles {u v w : Fin g.numVertices} :
    (u, v, w) ∈ g.descendingTriangles ↔
      (v < u ∧ g.HasArc u v) ∧ (w < v ∧ g.HasArc v w) ∧ g.HasArc u w := by
  rw [descendingTriangles, Finset.mem_filter, and_iff_right (Finset.mem_univ _)]

/-- The neighbors of all vertices are their targets. -/
theorem neighborLists_eq (hwell : g.WellFormed) :
    g.neighborLists = .ok (g.vertices.map g.targets).toArray := by
  have hlists : g.vertices.mapM g.outNeighbors = .ok (g.vertices.map g.targets) :=
    mapM_eq_map fun u hu => hwell.outNeighbors_eq (List.mem_range.mp hu)
  rw [neighborLists, hlists]
  rfl

/-- The list of a vertex holds its targets. -/
theorem readAt_targets (hu : u < g.numVertices) :
    readAt (g.vertices.map g.targets).toArray u = .ok (g.targets u) := by
  rw [readAt_of_lt (by simpa [vertices] using hu)]
  simp [vertices]

/-- Scanning the neighbors of a vertex below it finds those that another vertex has an arc to as well. -/
theorem countCommonForward_targets (hwell : g.WellFormed) (hu : g.Orderly u) (hv : g.Orderly v) :
    countCommonForward ((g.targets v).takeWhile (· < v)) (g.targets u) =
      ∑ w : Fin g.numVertices, if (w < v ∧ g.HasArc v w) ∧ g.HasArc u w then 1 else 0 := by
  rw [takeWhile_eq_filter hv.1, countCommonForward_eq (hv.1.filter _) hu.1, List.countP_eq_length_filter,
    length_eq_sum_fin ((hv.nodup.filter _).filter _) fun w hw =>
      hwell.lt_of_hasArc' (List.mem_filter.mp (List.mem_filter.mp hw).1).1]
  apply Finset.sum_congr rfl
  intro w _
  apply if_congr _ rfl rfl
  simp only [List.mem_filter, decide_eq_true_eq]
  exact and_congr_left' and_comm

/-- What a scan of the lists of the neighbors below a vertex finds in its own list. -/
def scannedBelow (g : Graph) (u : Nat) : Nat :=
  total (((g.targets u).takeWhile (· < u)).map fun v =>
    countCommonForward ((g.targets v).takeWhile (· < v)) (g.targets u))

/-- Counting below a vertex scans the lists of its neighbors, in order or not. -/
theorem trianglesBelow_eq (hwell : g.WellFormed) (hu : u < g.numVertices) :
    trianglesBelow (g.vertices.map g.targets).toArray u = .ok (g.scannedBelow u) := by
  have hscans : ((g.targets u).takeWhile (· < u)).mapM (fun v => do
      return countCommonForward ((← readAt (g.vertices.map g.targets).toArray v).takeWhile (· < v))
        (g.targets u)) = .ok (((g.targets u).takeWhile (· < u)).map fun v =>
          countCommonForward ((g.targets v).takeWhile (· < v)) (g.targets u)) := by
    apply mapM_eq_map
    intro v hv
    have harc : g.HasArc u v := List.takeWhile_subset _ hv
    rw [readAt_targets (hwell.lt_of_hasArc' harc)]
    rfl
  rw [trianglesBelow, readAt_targets hu, ok_bind, hscans]
  rfl

/-- The count from the largest vertices ends, whatever the order of the rows is. -/
theorem countFromLargest_eq_total (hwell : g.WellFormed) :
    g.countFromLargest = .ok (total (g.vertices.map g.scannedBelow)) := by
  have hcounts : g.vertices.mapM (trianglesBelow (g.vertices.map g.targets).toArray) =
      .ok (g.vertices.map g.scannedBelow) :=
    mapM_eq_map fun u hu => trianglesBelow_eq hwell (List.mem_range.mp hu)
  rw [countFromLargest, neighborLists_eq hwell, ok_bind, hcounts]
  rfl

/-- In ordered rows a scan finds the triangles of which the vertex is the largest one. -/
theorem scannedBelow_eq (hwell : g.WellFormed) (horderly : ∀ u < g.numVertices, g.Orderly u)
    (u : Fin g.numVertices) :
    g.scannedBelow u = ∑ v, ∑ w, if (u, v, w) ∈ g.descendingTriangles then 1 else 0 := by
  have hu := horderly u u.isLt
  have hscan (v : Fin g.numVertices) :
      countCommonForward ((g.targets v).takeWhile (· < v.val)) (g.targets u) =
        ∑ w : Fin g.numVertices, if (w < v ∧ g.HasArc v w) ∧ g.HasArc u w then 1 else 0 :=
    countCommonForward_targets hwell hu (horderly v v.isLt)
  rw [scannedBelow, takeWhile_eq_filter hu.1, total_eq_sum,
    sum_map_eq_sum_fin (n := g.numVertices) (hu.nodup.filter _) fun v hv =>
      hwell.lt_of_hasArc' (List.mem_filter.mp hv).1]
  apply Finset.sum_congr rfl
  intro v _
  simp only [mem_descendingTriangles, List.mem_filter, decide_eq_true_eq, hscan]
  by_cases hv : v < u ∧ g.HasArc u v
  · rw [if_pos ⟨hv.2, hv.1⟩]
    simp only [hv, true_and]
  · rw [if_neg fun h => hv ⟨h.2, h.1⟩]
    simp only [hv, false_and, if_false, Finset.sum_const_zero]

/-- The count from the largest vertices is the number of triangles in descending order. -/
theorem countFromLargest_eq_descending (hwell : g.WellFormed)
    (horderly : ∀ u < g.numVertices, g.Orderly u) :
    g.countFromLargest = .ok g.descendingTriangles.card := by
  have hcard : g.descendingTriangles.card = ∑ t, if t ∈ g.descendingTriangles then 1 else 0 := by
    rw [Finset.sum_boole, Finset.filter_mem_eq_inter, Finset.univ_inter, Nat.cast_id]
  rw [countFromLargest_eq_total hwell, total_eq_sum, sum_map_vertices, hcard, Fintype.sum_prod_type]
  congr 1
  apply Finset.sum_congr rfl
  intro u _
  rw [scannedBelow_eq hwell horderly, Fintype.sum_prod_type]

/-- Every triangle has one descending order. -/
theorem card_descendingTriangles (hsymm : ∀ u v, g.HasArc u v → g.HasArc v u) :
    g.descendingTriangles.card = (g.links.cliqueFinset 3).card := by
  apply Finset.card_bij fun t _ => {t.1, t.2.1, t.2.2}
  · intro (u, v, w) ht
    obtain ⟨⟨hvu, huv⟩, ⟨hwv, hvw⟩, huw⟩ := mem_descendingTriangles.mp ht
    rw [SimpleGraph.mem_cliqueFinset_iff, SimpleGraph.is3Clique_triple_iff]
    exact ⟨⟨hvu.ne', Or.inl huv⟩, ⟨(hwv.trans hvu).ne', Or.inl huw⟩, ⟨hwv.ne', Or.inl hvw⟩⟩
  · intro (u, v, w) ht (u', v', w') ht' heq
    obtain ⟨⟨hvu, _⟩, ⟨hwv, _⟩, _⟩ := mem_descendingTriangles.mp ht
    obtain ⟨⟨hvu', _⟩, ⟨hwv', _⟩, _⟩ := mem_descendingTriangles.mp ht'
    have hmem (x : Fin g.numVertices) : x = u ∨ x = v ∨ x = w ↔ x = u' ∨ x = v' ∨ x = w' := by
      simpa using Finset.ext_iff.mp heq x
    have hu := (hmem u).mp (by simp)
    have hu' := (hmem u').mpr (by simp)
    have hv := (hmem v).mp (by simp)
    have hw := (hmem w).mp (by simp)
    have hw' := (hmem w').mpr (by simp)
    have hfirst : u = u' := by omega
    have hlast : w = w' := by omega
    have hmiddle : v = v' := by omega
    rw [hfirst, hmiddle, hlast]
  · intro s hs
    have hclique := (SimpleGraph.mem_cliqueFinset_iff.mp hs)
    have hlinked (i j : Fin 3) (hij : i < j) : s.orderEmbOfFin hclique.card_eq i <
        s.orderEmbOfFin hclique.card_eq j ∧
        g.HasArc (s.orderEmbOfFin hclique.card_eq j) (s.orderEmbOfFin hclique.card_eq i) := by
      have hlt := (s.orderEmbOfFin hclique.card_eq).strictMono hij
      have hadj := hclique.isClique (s.orderEmbOfFin_mem hclique.card_eq i)
        (s.orderEmbOfFin_mem hclique.card_eq j) hlt.ne
      exact ⟨hlt, hadj.2.elim (hsymm _ _) id⟩
    refine ⟨(s.orderEmbOfFin hclique.card_eq 2, s.orderEmbOfFin hclique.card_eq 1,
      s.orderEmbOfFin hclique.card_eq 0), ?_, ?_⟩
    · exact mem_descendingTriangles.mpr
        ⟨hlinked 1 2 (by decide), hlinked 0 1 (by decide), (hlinked 0 2 (by decide)).2⟩
    · have himage := s.image_orderEmbOfFin_univ hclique.card_eq
      rw [show (Finset.univ : Finset (Fin 3)) = {2, 1, 0} by decide] at himage
      simpa [Finset.image_insert] using himage

/-- Counting from the largest vertices finds every triangle once. -/
theorem countFromLargest_eq (hwell : g.WellFormed) (hsymm : ∀ u v, g.HasArc u v → g.HasArc v u)
    (horderly : ∀ u < g.numVertices, g.Orderly u) :
    g.countFromLargest = .ok (g.links.cliqueFinset 3).card := by
  rw [countFromLargest_eq_descending hwell horderly, card_descendingTriangles hsymm]

/-- A graph has as many triangles as any graph with isomorphic links. -/
theorem card_cliqueFinset_eq {h : Graph} (iso : g.links ≃g h.links) :
    (h.links.cliqueFinset 3).card = (g.links.cliqueFinset 3).card := by
  have hmap : h.links = g.links.map iso.toEquiv := by
    ext u v
    have hadj_iff := SimpleGraph.map_adj iso.toEquiv.toEmbedding g.links u v
    rw [Equiv.coe_toEmbedding] at hadj_iff
    rw [hadj_iff]
    constructor
    · intro hadj
      refine ⟨iso.symm u, iso.symm v, iso.map_rel_iff.mp ?_, iso.apply_symm_apply u, iso.apply_symm_apply v⟩
      rwa [iso.apply_symm_apply, iso.apply_symm_apply]
    · intro ⟨x, y, hadj, hx, hy⟩
      rw [← hx, ← hy]
      exact iso.map_rel_iff.mpr hadj
  have hset (e : Fin g.numVertices ≃ Fin h.numVertices) (he : h.links = g.links.map e) :
      h.links.cliqueSet 3 = Finset.map e.toEmbedding '' g.links.cliqueSet 3 := by
    rw [he, SimpleGraph.cliqueSet_map_of_equiv]
  have hcliques : h.links.cliqueFinset 3 = (g.links.cliqueFinset 3).map
      ⟨Finset.map iso.toEquiv.toEmbedding, Finset.map_injective _⟩ := by
    apply Finset.coe_injective
    rw [SimpleGraph.coe_cliqueFinset, hset _ hmap, Finset.coe_map, SimpleGraph.coe_cliqueFinset]
    rfl
  rw [hcliques, Finset.card_map]

/-- Relabelling by degree does not change the number of triangles that is counted. -/
theorem countFromLargest_renameByDegree (hwell : g.WellFormed) (hundirected : g.directed = false)
    (hsymm : ∀ u v, g.HasArc u v → g.HasArc v u) :
    ∃ next, g.renameByDegree = .ok next ∧ next.countFromLargest = .ok (g.links.cliqueFinset 3).card := by
  obtain ⟨order, horder, hrenamed⟩ := renameByDegree_eq hwell hundirected
  refine ⟨g.renamed order, hrenamed, ?_⟩
  rw [← card_cliqueFinset_eq (linksIso hwell horder)]
  exact countFromLargest_eq (wellFormed_renamed hwell horder) (hasArc_renamed_symm hwell horder hsymm)
    fun u hu => orderly_ofEdges _ false hu

/-- Looking for skewed degrees always gives an answer. -/
theorem hasSkewedDegrees_yields (hwell : g.WellFormed) : Yields g.hasSkewedDegrees fun _ => True := by
  rw [hasSkewedDegrees]
  by_cases hn : g.numVertices = 0
  · rw [if_pos hn]
    exact .ok trivial
  · rw [if_neg hn, quotient_of_pos (Nat.pos_of_ne_zero hn), ok_bind]
    by_cases hsparse : g.numEdges / g.numVertices < denseDegree
    · rw [if_pos hsparse]
      exact .ok trivial
    · rw [if_neg hsparse]
      have hdegrees : Yields (sampleDegrees g (min degreeSamples g.numVertices)) fun _ => True := by
        rw [sampleDegrees]
        apply (sampleSources_yields hwell _ defaultSeed).bind
        intro sources hsources
        rw [mapM_eq_map fun v hv => hwell.outDegree_eq (hsources v hv)]
        exact .ok trivial
      apply hdegrees.bind
      intro degrees _
      exact .ok trivial

/-- Whichever graph the triangles are counted on, their number is that of the given graph. -/
theorem triangleCount_eq (hwell : g.WellFormed) (hundirected : g.directed = false)
    (hsymm : ∀ u v, g.HasArc u v → g.HasArc v u) (horderly : ∀ u < g.numVertices, g.Orderly u) :
    ∃ events, g.triangleCount = .ok ⟨(g.links.cliqueFinset 3).card, events⟩ := by
  obtain ⟨worth, hworth, _⟩ := hasSkewedDegrees_yields hwell
  obtain ⟨next, hnext, hcount⟩ := countFromLargest_renameByDegree hwell hundirected hsymm
  have hcount' := countFromLargest_eq hwell hsymm horderly
  have hchecked : g.triangleCount = (do
      let counted ← if worth.value then g.renameTraced else pure ⟨g, []⟩
      let triangles ← counted.value.countFromLargest.mapError Failure.fault
      return ⟨triangles, worth.events ++ counted.events ++ [.trianglesComplete g.numVertices triangles]⟩) := by
    simp only [triangleCount, hundirected, firstUnsorted?_eq_none hwell horderly, hworth]
    rfl
  rw [hchecked]
  cases worth.value with
  | true =>
    rw [if_pos rfl, renameTraced, hnext]
    change ∃ events, (do
      let triangles ← next.countFromLargest.mapError Failure.fault
      return ⟨triangles, worth.events ++ [.graphRelabelled g.numVertices] ++
        [.trianglesComplete g.numVertices triangles]⟩ : Except Failure (Traced Nat)) = _
    rw [hcount]
    exact ⟨_, rfl⟩
  | false =>
    rw [if_neg (by simp)]
    change ∃ events, (do
      let triangles ← g.countFromLargest.mapError Failure.fault
      return ⟨triangles, worth.events ++ [] ++ [.trianglesComplete g.numVertices triangles]⟩ :
        Except Failure (Traced Nat)) = _
    rw [hcount']
    exact ⟨_, rfl⟩

/-- Triangles of a directed graph are not counted. -/
theorem triangleCount_directed (hdirected : g.directed = true) :
    g.triangleCount = .error (.rejected .directedGraph) := by
  rw [triangleCount, if_pos hdirected]
  rfl

/-- Triangles are not counted when the neighbors of a vertex are not in order. -/
theorem triangleCount_unsorted (hwell : g.WellFormed) (hundirected : g.directed = false)
    (hu : u < g.numVertices) (hunsorted : ¬ g.Orderly u) (hleast : ∀ v < u, g.Orderly v) :
    g.triangleCount = .error (.rejected (.unsortedNeighbors u)) := by
  simp only [triangleCount, hundirected, firstUnsorted?_eq_some hwell hu hunsorted hleast]
  rfl

/-- Triangles are counted on every undirected graph whose arcs go both ways and whose neighbors are in order,
relabelled or not, and six times their number is at most the product of the arc count and the vertex count. They are
counted on no other graph: a directed one is rejected, and so is one with neighbors that are not in order, by the
smallest vertex that has them. -/
theorem triangleCount_spec (hg : g.Constructible) :
    (g.directed = false → (∀ u v, g.HasArc u v → g.HasArc v u) → (∀ u < g.numVertices, g.Orderly u) →
      g.countFromLargest = .ok (g.links.cliqueFinset 3).card ∧
        (∃ next, g.renameByDegree = .ok next ∧
          next.countFromLargest = .ok (g.links.cliqueFinset 3).card) ∧
        (∃ events, g.triangleCount = .ok ⟨(g.links.cliqueFinset 3).card, events⟩) ∧
        6 * (g.links.cliqueFinset 3).card ≤ g.numArcs * g.numVertices) ∧
    (g.directed = true → g.triangleCount = .error (.rejected .directedGraph)) ∧
    (g.directed = false → (∃ u < g.numVertices, ¬ g.Orderly u) →
      ∃ u, IsLeast {u | u < g.numVertices ∧ ¬ g.Orderly u} u ∧
        g.triangleCount = .error (.rejected (.unsortedNeighbors u))) := by
  have hwell := hg.wellFormed
  refine ⟨fun hundirected hsymm horderly => ?_, triangleCount_directed, fun hundirected hsome => ?_⟩
  · exact ⟨countFromLargest_eq hwell hsymm horderly,
      countFromLargest_renameByDegree hwell hundirected hsymm,
      triangleCount_eq hwell hundirected hsymm horderly, six_mul_triangles_le hwell hsymm horderly⟩
  · obtain ⟨hu, hunsorted⟩ := Nat.find_spec hsome
    refine ⟨Nat.find hsome, ⟨⟨hu, hunsorted⟩, fun v hv => Nat.find_min' hsome hv⟩, ?_⟩
    apply triangleCount_unsorted hwell hundirected hu hunsorted
    intro v hv
    by_contra hunsorted'
    exact Nat.find_min hsome hv ⟨hv.trans hu, hunsorted'⟩

/-- A triangle whose rows ascend is counted, and one whose rows do not is rejected. -/
theorem triangleCount_spec_triangle :
    (∃ g, build { directed := false } [⟨1, 0, 1⟩, ⟨2, 0, 1⟩, ⟨2, 1, 1⟩] = .ok g ∧
      ∃ events, g.triangleCount = .ok ⟨(g.links.cliqueFinset 3).card, events⟩) ∧
    ∃ g, build { directed := false } [⟨0, 1, 1⟩, ⟨0, 2, 1⟩, ⟨1, 2, 1⟩] = .ok g ∧
      ∃ u, IsLeast {u | u < g.numVertices ∧ ¬ g.Orderly u} u ∧
        g.triangleCount = .error (.rejected (.unsortedNeighbors u)) := by
  refine ⟨⟨_, rfl, ?_⟩, ⟨_, rfl, ?_⟩⟩
  · have hbuild : build { directed := false } [⟨1, 0, 1⟩, ⟨2, 0, 1⟩, ⟨2, 1, 1⟩] = .ok _ := rfl
    have hsymm (u v : Nat) := (mirrored_build hbuild).hasArc_symm (u := u) (v := v)
      (wellFormed_build hbuild) rfl
    exact ((triangleCount_spec (.build hbuild)).1 rfl hsymm (by decide)).2.2.1
  · have hbuild : build { directed := false } [⟨0, 1, 1⟩, ⟨0, 2, 1⟩, ⟨1, 2, 1⟩] = .ok _ := rfl
    exact (triangleCount_spec (.build hbuild)).2.2 rfl ⟨1, by decide, by decide⟩

end Graph

end GraphKernels
