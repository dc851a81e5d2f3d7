import GraphKernels.Proofs.Triangle.Count
import GraphKernels.Proofs.Verdict
import GraphKernels.Triangle.Check

/-!
# The check of a triangle count sees every triangle six times

Merging the ascending neighbors of the ends of an arc finds every vertex that both have an arc to. Added up over
all arcs, these are the corners of the triangles, six for each, and dividing their number by six leaves no
remainder.
-/

namespace GraphKernels

variable {as bs : List Nat}

/-- Merging ascending lists counts the entries that occur in both. -/
theorem intersectionSize_eq (has : as.Pairwise (· < ·)) (hbs : bs.Pairwise (· < ·)) :
    intersectionSize as bs = as.countP (· ∈ bs) := by
  induction as, bs using intersectionSize.induct with
  | case1 bs => rw [intersectionSize, List.countP_nil]
  | case2 a as => simp [intersectionSize]
  | case3 a as b bs hlt ih =>
    rw [List.pairwise_cons] at has
    -- What the other list still holds is larger than the smaller head.
    have ha : a ∉ b :: bs := by
      intro hmem
      rcases List.mem_cons.mp hmem with rfl | hmem
      · omega
      · have := (List.pairwise_cons.mp hbs).1 a hmem
        omega
    rw [intersectionSize, if_pos hlt, ih has.2 hbs, List.countP_cons_of_neg (by simpa using ha)]
  | case4 a as b bs hle hlt ih =>
    have hb : ∀ x ∈ a :: as, x ≠ b := by
      intro x hx
      rcases List.mem_cons.mp hx with rfl | hx
      · omega
      · have := (List.pairwise_cons.mp has).1 x hx
        omega
    rw [intersectionSize, if_neg hle, if_pos hlt, ih has (List.pairwise_cons.mp hbs).2]
    apply List.countP_congr
    intro x hx
    simp [hb x hx]
  | case5 a as b bs hle hle' ih =>
    have heq : a = b := by omega
    rw [List.pairwise_cons] at has
    rw [intersectionSize, if_neg hle, if_neg hle', ih has.2 (List.pairwise_cons.mp hbs).2,
      List.countP_cons_of_pos (by simp [heq])]
    congr 1
    apply List.countP_congr
    intro x hx
    have := has.1 x hx
    have hne : x ≠ b := by omega
    simp [hne]

namespace Graph

variable {g : Graph}

/-- The intersections along all arcs are added up, whatever the order of the rows is. -/
theorem intersectionTotal_eq (hwell : g.WellFormed) :
    g.intersectionTotal = .ok (total (g.vertices.map fun u =>
      total ((g.targets u).map fun v => intersectionSize (g.targets u) (g.targets v)))) := by
  have hsizes (u : Nat) : (g.targets u).mapM (fun v => do
      return intersectionSize (g.targets u) (← readAt (g.vertices.map g.targets).toArray v)) =
        .ok ((g.targets u).map fun v => intersectionSize (g.targets u) (g.targets v)) := by
    apply mapM_eq_map
    intro v hv
    rw [readAt_targets (hwell.lt_of_hasArc' hv)]
    rfl
  have hvertices : g.vertices.mapM (intersectionsAt (g.vertices.map g.targets).toArray) =
      .ok (g.vertices.map fun u =>
        total ((g.targets u).map fun v => intersectionSize (g.targets u) (g.targets v))) := by
    apply mapM_eq_map
    intro u hu
    rw [intersectionsAt, readAt_targets (List.mem_range.mp hu), ok_bind, hsizes]
    rfl
  rw [intersectionTotal, neighborLists_eq hwell, ok_bind, hvertices]
  rfl

/-- The merge of the neighbors of two vertices counts the vertices that are linked to both. -/
theorem intersectionSize_targets (hwell : g.WellFormed) (hsymm : ∀ u v, g.HasArc u v → g.HasArc v u)
    (horderly : ∀ u < g.numVertices, g.Orderly u) (u v : Fin g.numVertices) :
    intersectionSize (g.targets u) (g.targets v) =
      (Finset.univ.filter fun w => g.links.Adj u w ∧ g.links.Adj v w).card := by
  have hu := horderly u u.isLt
  rw [intersectionSize_eq hu.1 (horderly v v.isLt).1, List.countP_eq_length_filter,
    length_eq_sum_fin (hu.nodup.filter _) fun w hw => hwell.lt_of_hasArc' (List.mem_filter.mp hw).1,
    Finset.card_filter]
  apply Finset.sum_congr rfl
  intro w _
  apply if_congr _ rfl rfl
  rw [links_adj_iff_hasArc hsymm horderly, links_adj_iff_hasArc hsymm horderly, List.mem_filter,
    decide_eq_true_eq]
  exact Iff.rfl

/-- The intersections along all arcs see every triangle six times. -/
theorem intersectionTotal_eq_six_mul (hwell : g.WellFormed) (hsymm : ∀ u v, g.HasArc u v → g.HasArc v u)
    (horderly : ∀ u < g.numVertices, g.Orderly u) :
    g.intersectionTotal = .ok (6 * (g.links.cliqueFinset 3).card) := by
  rw [intersectionTotal_eq hwell, total_eq_sum, ← sum_card_linked_to_both, sum_map_vertices]
  congr 1
  apply Finset.sum_congr rfl
  intro u _
  rw [total_eq_sum, sum_map_eq_sum_fin (horderly u u.isLt).nodup fun v hv => hwell.lt_of_hasArc' hv]
  apply Finset.sum_congr rfl
  intro v _
  rw [intersectionSize_targets hwell hsymm horderly]
  exact if_congr (links_adj_iff_hasArc hsymm horderly u v).symm rfl rfl

/-- The check of a triangle count compares it with a sixth of the intersections, and accepts none for a
directed graph. -/
theorem checkTriangles_decides_sixth {sum : Nat} (hrun : g.intersectionTotal = .ok sum) (count : Nat) :
    Decides (g.checkTriangles count) (g.directed = false ∧ count = sum / 6) := by
  rw [checkTriangles]
  cases hdirected : g.directed with
  | true =>
    rw [if_pos rfl]
    exact .reject fun h => Bool.noConfusion h.1
  | false =>
    rw [if_neg Bool.false_ne_true, hrun, ok_bind]
    by_cases hcount : sum / 6 = count
    · rw [if_pos hcount]
      exact .accept ⟨rfl, hcount.symm⟩
    · rw [if_neg hcount]
      exact .reject fun h => hcount h.2.symm

/-- On every undirected graph whose arcs go both ways and whose neighbors are in order, the intersections
along all arcs add up to six times the number of triangles, at most the product of the arc count and the vertex
count, and the check accepts that number and no other. -/
theorem checkTriangles_decides (hg : g.Constructible) (hundirected : g.directed = false)
    (hsymm : ∀ u v, g.HasArc u v → g.HasArc v u) (horderly : ∀ u < g.numVertices, g.Orderly u) :
    g.intersectionTotal = .ok (6 * (g.links.cliqueFinset 3).card) ∧
      6 * (g.links.cliqueFinset 3).card ≤ g.numArcs * g.numVertices ∧
      ∀ count, Decides (g.checkTriangles count) (count = (g.links.cliqueFinset 3).card) := by
  have htotal := intersectionTotal_eq_six_mul hg.wellFormed hsymm horderly
  refine ⟨htotal, six_mul_triangles_le hg.wellFormed hsymm horderly, fun count => ?_⟩
  have hdecides := checkTriangles_decides_sixth htotal count
  rwa [eq_true hundirected, true_and, Nat.mul_div_cancel_left _ (by omega)] at hdecides

/-- Two triangles that share an edge. -/
theorem checkTriangles_decides_pair :
    ∃ g, build { directed := false } [⟨1, 0, 1⟩, ⟨2, 0, 1⟩, ⟨2, 1, 1⟩, ⟨3, 1, 1⟩, ⟨3, 2, 1⟩] = .ok g ∧
      g.intersectionTotal = .ok 12 ∧ Decides (g.checkTriangles 2) True ∧
      Decides (g.checkTriangles 3) False := by
  refine ⟨_, rfl, ?_⟩
  have hbuild : build { directed := false }
      [⟨1, 0, 1⟩, ⟨2, 0, 1⟩, ⟨2, 1, 1⟩, ⟨3, 1, 1⟩, ⟨3, 2, 1⟩] = .ok _ := rfl
  have hsymm (u v : Nat) := (mirrored_build hbuild).hasArc_symm (u := u) (v := v)
    (wellFormed_build hbuild) rfl
  obtain ⟨htotal, -, hverdict⟩ := checkTriangles_decides (.build hbuild) rfl hsymm (by decide +kernel)
  rw [htotal]
  refine ⟨congrArg _ (by decide +kernel), ?_, ?_⟩
  · exact (hverdict 2).congr (by decide +kernel)
  · exact (hverdict 3).congr (by decide +kernel)

end Graph

end GraphKernels
