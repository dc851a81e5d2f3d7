import GraphKernels.Proofs.Graph.DegreeOrder

/-!
# Triangles, seen from their arcs

A vertex that both ends of an arc have an arc to completes the arc to a triangle. A triangle has six ordered pairs
of different vertices, each of which is an arc, so the vertices that complete arcs, added up over all arcs, are six
times the triangles. No more vertices complete an arc than there are.
-/

namespace GraphKernels

/-- A sum over a list of different vertices is one over all vertices. -/
theorem sum_map_eq_sum_fin {n : Nat} {list : List Nat} (hnodup : list.Nodup) (hlt : ∀ v ∈ list, v < n)
    (f : Nat → Nat) : (list.map f).sum = ∑ v : Fin n, if v.val ∈ list then f v else 0 := by
  have hfilter : list.toFinset = (Finset.range n).filter (· ∈ list) := by
    ext v
    rw [List.mem_toFinset, Finset.mem_filter, Finset.mem_range, iff_and_self]
    exact hlt v
  rw [← List.sum_toFinset f hnodup, hfilter, Finset.sum_filter, Finset.sum_range]

/-- The length of a list of different vertices, counted over all vertices. -/
theorem length_eq_sum_fin {n : Nat} {list : List Nat} (hnodup : list.Nodup) (hlt : ∀ v ∈ list, v < n) :
    list.length = ∑ v : Fin n, if v.val ∈ list then 1 else 0 := by
  have hsum := sum_map_eq_sum_fin hnodup hlt fun _ => 1
  rwa [List.map_const', List.sum_replicate, smul_eq_mul, Nat.mul_one] at hsum

section Links

variable {V : Type} [Fintype V] [DecidableEq V] {G : SimpleGraph V} [DecidableRel G.Adj] {u v : V}

/-- The vertices that are linked to both ends of a link complete it to the triangles that have both ends. -/
theorem card_linked_to_both (huv : G.Adj u v) :
    (Finset.univ.filter fun w => G.Adj u w ∧ G.Adj v w).card =
      ((G.cliqueFinset 3).filter fun s => (u, v) ∈ s.offDiag).card := by
  apply Finset.card_bij fun w _ => {u, v, w}
  · intro w hw
    obtain ⟨huw, hvw⟩ := (Finset.mem_filter.mp hw).2
    rw [Finset.mem_filter, SimpleGraph.mem_cliqueFinset_iff, SimpleGraph.is3Clique_triple_iff,
      Finset.mem_offDiag]
    exact ⟨⟨huv, huw, hvw⟩, by simp, by simp, huv.ne⟩
  · intro w hw w' hw' heq
    obtain ⟨huw, hvw⟩ := (Finset.mem_filter.mp hw).2
    have hmem : w ∈ ({u, v, w'} : Finset V) := heq ▸ by simp
    simpa [huw.ne', hvw.ne'] using hmem
  · intro s hs
    obtain ⟨hmem, hpair⟩ := Finset.mem_filter.mp hs
    have hclique := SimpleGraph.mem_cliqueFinset_iff.mp hmem
    obtain ⟨hu, hv, hne⟩ := Finset.mem_offDiag.mp hpair
    have hfewer : ({u, v} : Finset V).card < s.card := by
      rw [Finset.card_pair hne, hclique.card_eq]
      omega
    obtain ⟨w, hw, hother⟩ := Finset.exists_mem_notMem_of_card_lt_card hfewer
    rw [Finset.mem_insert, Finset.mem_singleton, not_or] at hother
    have huw := hclique.isClique hu hw (Ne.symm hother.1)
    have hvw := hclique.isClique hv hw (Ne.symm hother.2)
    have htriangle := SimpleGraph.is3Clique_triple_iff.mpr ⟨huv, huw, hvw⟩
    refine ⟨w, by simp [huw, hvw], Finset.eq_of_subset_of_card_le ?_ ?_⟩
    · simp [Finset.insert_subset_iff, hu, hv, hw]
    · rw [hclique.card_eq, htriangle.card_eq]

/-- Every triangle is seen from each of its six ordered pairs of vertices. -/
theorem sum_card_linked_to_both (G : SimpleGraph V) [DecidableRel G.Adj] :
    (∑ u, ∑ v, if G.Adj u v then (Finset.univ.filter fun w => G.Adj u w ∧ G.Adj v w).card else 0) =
      6 * (G.cliqueFinset 3).card := by
  have hpair (u v : V) :
      (if G.Adj u v then (Finset.univ.filter fun w => G.Adj u w ∧ G.Adj v w).card else 0) =
        ((G.cliqueFinset 3).filter fun s => (u, v) ∈ s.offDiag).card := by
    by_cases huv : G.Adj u v
    · rw [if_pos huv, card_linked_to_both huv]
    · rw [if_neg huv, eq_comm, Finset.card_eq_zero, Finset.filter_eq_empty_iff]
      intro s hs hpair
      obtain ⟨hu, hv, hne⟩ := Finset.mem_offDiag.mp hpair
      exact huv ((SimpleGraph.mem_cliqueFinset_iff.mp hs).isClique hu hv hne)
  have hsix (s : Finset V) (hs : s ∈ G.cliqueFinset 3) :
      (Finset.univ.filter fun p => p ∈ s.offDiag).card = 6 := by
    rw [Finset.filter_univ_mem, Finset.offDiag_card, (SimpleGraph.mem_cliqueFinset_iff.mp hs).card_eq]
  calc (∑ u, ∑ v, if G.Adj u v then (Finset.univ.filter fun w => G.Adj u w ∧ G.Adj v w).card else 0)
      = ∑ p : V × V, ((G.cliqueFinset 3).filter fun s => p ∈ s.offDiag).card := by
        simp only [hpair, Fintype.sum_prod_type]
    _ = ∑ s ∈ G.cliqueFinset 3, (Finset.univ.filter fun p => p ∈ s.offDiag).card :=
        Finset.sum_card_bipartiteAbove_eq_sum_card_bipartiteBelow _
    _ = 6 * (G.cliqueFinset 3).card := by
        rw [Finset.sum_congr rfl hsix, Finset.sum_const, smul_eq_mul, Nat.mul_comm]

/-- No more vertices complete a link than there are. -/
theorem six_mul_card_cliqueFinset_le (G : SimpleGraph V) [DecidableRel G.Adj] :
    6 * (G.cliqueFinset 3).card ≤ (∑ u, ∑ v, if G.Adj u v then 1 else 0) * Fintype.card V := by
  rw [← sum_card_linked_to_both, Finset.sum_mul]
  apply Finset.sum_le_sum
  intro u _
  rw [Finset.sum_mul]
  apply Finset.sum_le_sum
  intro v _
  by_cases huv : G.Adj u v
  · rw [if_pos huv, if_pos huv, Nat.one_mul]
    exact Finset.card_filter_le _ _
  · rw [if_neg huv, if_neg huv, Nat.zero_mul]

end Links

namespace Graph

variable {g : Graph} {u : Nat}

/-- A sum over the vertices of a graph in ascending order. -/
theorem sum_map_vertices (g : Graph) (f : Nat → Nat) : (g.vertices.map f).sum = ∑ u : Fin g.numVertices, f u := by
  have hnodup : g.vertices.Nodup := List.nodup_range
  rw [sum_map_eq_sum_fin hnodup fun u hu => List.mem_range.mp hu]
  exact Finset.sum_congr rfl fun u _ => if_pos (List.mem_range.mpr u.isLt)

/-- The neighbors of a vertex with rows in order are listed once each. -/
theorem Orderly.nodup (h : g.Orderly u) : (g.targets u).Nodup := h.1.imp Nat.ne_of_lt

/-- Where arcs go both ways and rows are in order, vertices are linked exactly when they have an arc. -/
theorem links_adj_iff_hasArc (hsymm : ∀ u v, g.HasArc u v → g.HasArc v u)
    (horderly : ∀ u < g.numVertices, g.Orderly u) (u v : Fin g.numVertices) :
    g.links.Adj u v ↔ g.HasArc u v := by
  rw [links_adj]
  constructor
  · intro hadj
    exact hadj.2.elim id (hsymm v u)
  · intro harc
    refine ⟨fun heq => ?_, Or.inl harc⟩
    rw [← heq] at harc
    exact (horderly u u.isLt).2 harc

/-- There are as many links, each counted from both ends, as arcs. -/
theorem sum_links_eq_numArcs (hwell : g.WellFormed) (hsymm : ∀ u v, g.HasArc u v → g.HasArc v u)
    (horderly : ∀ u < g.numVertices, g.Orderly u) :
    (∑ u, ∑ v, if g.links.Adj u v then 1 else 0) = g.numArcs := by
  rw [← hwell.sum_length_targets, sum_map_vertices]
  apply Finset.sum_congr rfl
  intro u _
  rw [length_eq_sum_fin (horderly u u.isLt).nodup fun v hv => hwell.lt_of_hasArc' hv]
  exact Finset.sum_congr rfl fun v _ => if_congr (links_adj_iff_hasArc hsymm horderly u v) rfl rfl

/-- Six times the number of triangles is at most the product of the arc count and the vertex count. -/
theorem six_mul_triangles_le (hwell : g.WellFormed) (hsymm : ∀ u v, g.HasArc u v → g.HasArc v u)
    (horderly : ∀ u < g.numVertices, g.Orderly u) :
    6 * (g.links.cliqueFinset 3).card ≤ g.numArcs * g.numVertices := by
  have hbound := six_mul_card_cliqueFinset_le g.links
  rwa [sum_links_eq_numArcs hwell hsymm horderly, Fintype.card_fin] at hbound

end Graph

end GraphKernels
