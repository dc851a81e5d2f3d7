import GraphKernels.Proofs.Graph.InputOrder
import GraphKernels.Proofs.Graph.Squish
import GraphKernels.Proofs.Ranking.InPlace
import GraphKernels.Proofs.Ranking.Residual

/-!
# Pushing and pulling in one order

The check hands shares on over out-arcs, vertex by vertex, and a sweep collects them over in-arcs. A vertex
gets the same terms from both in the same order when its in-arcs are listed by ascending source: those of a
directed graph are, since the reverse rows are filled by ascending source, and so are those of a squished one,
whose rows ascend strictly. The sums are then equal in any arithmetic, though addition need not be associative.
-/

namespace GraphKernels

variable {N W : Type} {ops : ScoreArithmetic N W} {o : BuildOptions} {edges : List Edge} {g : Graph}
  {scores : Array N} {u v n : Nat}

/-- Numbers in ascending order are listed number by number, each as often as it occurs. -/
theorem flatMap_replicate_count {items : List Nat} (hsorted : items.Pairwise (· ≤ ·)) (hlt : ∀ k ∈ items, k < n) :
    (List.range n).flatMap (fun k => List.replicate (items.count k) k) = items := by
  have hbins : (List.range n).flatMap (fun k => items.filter (id · == k)) = sortedBy id items :=
    flatMap_filter_key hlt
  have hsame : items = sortedBy id items := eq_sortedBy_iff.mpr ⟨hsorted, fun _ => rfl⟩
  conv_rhs => rw [hsame, ← hbins]
  exact List.flatMap_congr fun k _ => (List.filter_beq k).symm

/-- The edges of some rows come by ascending source. -/
theorem Rows.edges_pairwise (r : Rows) : r.edges.Pairwise (·.source ≤ ·.source) := by
  rw [Rows.edges, List.pairwise_flatMap]
  constructor
  · intro u _
    rw [List.pairwise_map]
    exact List.pairwise_of_forall_mem_list fun _ _ _ _ => Nat.le_refl u
  · apply List.pairwise_lt_range.imp
    intro u u' hlt e he e' he'
    obtain ⟨a, _, rfl⟩ := List.mem_map.mp he
    obtain ⟨a', _, rfl⟩ := List.mem_map.mp he'
    exact Nat.le_of_lt hlt

/-- Transposed rows ascend. -/
theorem Rows.Compressed.rowTargets_transpose_pairwise {r : Rows} (h : r.Compressed n) (hv : v < n) :
    (r.transpose.rowTargets v).Pairwise (· ≤ ·) := by
  rw [Rows.rowTargets, Rows.transpose, h.count_eq, row_grouped _ hv, arcsFrom_map_flip, List.map_map,
    List.pairwise_map]
  exact r.edges_pairwise.filter _

namespace Graph

/-- The in-arcs of a graph that is directed or squished are listed by ascending source. -/
theorem sources_pairwise_build (hbuild : build o edges = .ok g) (hkind : o.directed = true ∨ o.squish = true)
    (hv : v < g.numVertices) : (g.sources v).Pairwise (· ≤ ·) := by
  rcases hkind with hdirected | hsquish
  · obtain ⟨n, hn, rfl⟩ := build_spec hbuild
    rw [hdirected] at *
    exact (compressed_arcList hn).rowTargets_transpose_pairwise hv
  · exact ((squishedRows_build hsquish hbuild).columns_ascend v hv).imp Nat.le_of_lt

/-- Sources in ascending order are listed vertex by vertex, each once for every arc. -/
theorem Mirrored.sources_eq_flatMap (h : g.Mirrored) (hwell : g.WellFormed) (hv : v < g.numVertices)
    (hsorted : (g.sources v).Pairwise (· ≤ ·)) :
    g.sources v = g.vertices.flatMap fun u => List.replicate ((g.targets u).count v) u := by
  rw [vertices]
  conv_lhs => rw [← flatMap_replicate_count hsorted fun _ hu => hwell.source_lt hu]
  exact List.flatMap_congr fun u hu => by rw [h.count_sources (List.mem_range.mp hu) hv]

end Graph

/-- What is handed on to a vertex whose sources ascend is what it pulls, in the same order. -/
theorem handedTo_eq_map_sources (hwell : g.WellFormed) (hmirrored : g.Mirrored) (hv : v < g.numVertices)
    (hsorted : (g.sources v).Pairwise (· ≤ ·)) (hsize : scores.size = g.numVertices) :
    handedTo ops g scores.toList.zipIdx v = (g.sources v).map (g.currentShare ops scores) := by
  rw [handedTo, zipIdx_toList_eq scores ops.zero, hsize, List.flatMap_map,
    hmirrored.sources_eq_flatMap hwell hv hsorted, List.map_flatMap]
  exact List.flatMap_congr fun u _ => by rw [List.map_replicate, Graph.currentShare]

/-- On a built graph that is directed or squished, the loop of the check gives every vertex the sum, from left
to right, of the shares of its in-neighbors in stored order, and these are the terms that a sweep reads from
contributions that are shares. -/
theorem pushContributions_eq_pulled (hbuild : Graph.build o edges = .ok g)
    (hkind : o.directed = true ∨ o.squish = true) (ops : ScoreArithmetic N W) (scores : Array N)
    (hsize : scores.size = g.numVertices) :
    ∃ incoming, pushContributions ops g scores = .ok incoming ∧ incoming.size = g.numVertices ∧
      ∀ v < g.numVertices, ∃ sources, g.inNeighbors v = .ok sources ∧
        incoming[v]? = some (ops.sum (sources.map (g.currentShare ops scores))) ∧
        sources.mapM (readAt (g.shares ops scores)) = .ok (sources.map (g.currentShare ops scores)) := by
  have hwell := Graph.wellFormed_build hbuild
  have hmirrored := Graph.mirrored_build hbuild
  obtain ⟨incoming, hpush, hincoming, hsums⟩ := pushContributions_yields ops hwell hsize
  refine ⟨incoming, hpush, hincoming, fun v hv => ⟨g.sources v, hwell.inNeighbors_eq hv, ?_, ?_⟩⟩
  · have hsorted := Graph.sources_pairwise_build hbuild hkind hv
    rw [getElem?_eq_getD ops.zero (hincoming.symm ▸ hv), hsums v hv,
      handedTo_eq_map_sources hwell hmirrored hv hsorted hsize]
  · refine mapM_eq_map fun u hu => ?_
    have hu := hwell.source_lt hu
    rw [readAt_eq_getD ops.zero (by simpa [Graph.shares, Graph.vertices] using hu), Graph.getD_shares hu]

/-- A directed graph with two arcs side by side, a loop and an in-arc given before one from an earlier vertex,
and a squished undirected one, each with equal scores. -/
theorem pushContributions_eq_pulled_parallel :
    (∃ g incoming, Graph.build { numVertices := some 4 }
        [⟨2, 1, 1⟩, ⟨0, 1, 1⟩, ⟨0, 1, 2⟩, ⟨1, 1, 1⟩, ⟨1, 0, 1⟩] = .ok g ∧
      pushContributions .exact g (Array.replicate 4 (some (1 / 4))) = .ok incoming ∧
      incoming[1]? = some (ScoreArithmetic.exact.sum ([0, 0, 1, 2].map
        (g.currentShare .exact (Array.replicate 4 (some (1 / 4)))))) ∧
      incoming[1]? = some (some (5 / 8))) ∧
    ∃ g incoming, Graph.build { directed := false, squish := true }
        [⟨2, 1, 1⟩, ⟨0, 1, 1⟩, ⟨0, 1, 2⟩, ⟨1, 1, 1⟩, ⟨2, 3, 1⟩] = .ok g ∧
      pushContributions .exact g (Array.replicate 4 (some (1 / 4))) = .ok incoming ∧
      incoming[1]? = some (ScoreArithmetic.exact.sum ([0, 2].map
        (g.currentShare .exact (Array.replicate 4 (some (1 / 4)))))) := by
  constructor
  · obtain ⟨g, hbuild, hcount, hin, hvalue⟩ : ∃ g, Graph.build { numVertices := some 4 }
        [⟨2, 1, 1⟩, ⟨0, 1, 1⟩, ⟨0, 1, 2⟩, ⟨1, 1, 1⟩, ⟨1, 0, 1⟩] = .ok g ∧ g.numVertices = 4 ∧
        g.inNeighbors 1 = .ok [0, 0, 1, 2] ∧ ScoreArithmetic.exact.sum ([0, 0, 1, 2].map
          (g.currentShare .exact (Array.replicate 4 (some (1 / 4))))) = some (5 / 8) :=
      ⟨_, rfl, rfl, by cbv, by decide +kernel⟩
    obtain ⟨incoming, hpush, _, hsums⟩ := pushContributions_eq_pulled hbuild (.inl rfl) .exact
      (Array.replicate 4 (some (1 / 4))) hcount.symm
    obtain ⟨sources, hsources, hsum, _⟩ := hsums 1 (hcount ▸ by decide)
    cases hin.symm.trans hsources
    exact ⟨g, incoming, hbuild, hpush, hsum, hsum.trans (congrArg some hvalue)⟩
  · obtain ⟨g, hbuild, hcount, hin⟩ : ∃ g, Graph.build { directed := false, squish := true }
        [⟨2, 1, 1⟩, ⟨0, 1, 1⟩, ⟨0, 1, 2⟩, ⟨1, 1, 1⟩, ⟨2, 3, 1⟩] = .ok g ∧ g.numVertices = 4 ∧
        g.inNeighbors 1 = .ok [0, 2] := ⟨_, rfl, rfl, by cbv⟩
    obtain ⟨incoming, hpush, _, hsums⟩ := pushContributions_eq_pulled hbuild (.inr rfl) .exact
      (Array.replicate 4 (some (1 / 4))) hcount.symm
    obtain ⟨sources, hsources, hsum, _⟩ := hsums 1 (hcount ▸ by decide)
    cases hin.symm.trans hsources
    exact ⟨g, incoming, hbuild, hpush, hsum⟩

end GraphKernels
