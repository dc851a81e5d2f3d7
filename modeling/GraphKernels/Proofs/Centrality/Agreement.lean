import GraphKernels.Proofs.Arithmetic
import GraphKernels.Proofs.Centrality.Serial

/-!
# The kernel and the serial computation agree

Both computations go through the same levels, the kernel in the order of its queue and the serial one by
ascending vertex. The order inside a level decides in which order the counts that flow into a vertex are
added, and nothing else: the shares of a level do not read each other, and the arcs of a vertex keep their
order. So wherever the sums of counts do not depend on the order of the additions, both perform the same
operations on the same numbers, and their scores are equal whatever these operations are.
-/

namespace GraphKernels

variable {N W : Type} {ops : ScoreArithmetic N W} {g : Graph} {source d u v : Nat}

/-! ### Counts -/

/-- The number of shortest paths to a vertex at some depth, as the arithmetic adds it up: the counts one
level up, once for each arc, by ascending vertex. -/
noncomputable def Graph.pathCount (ops : ScoreArithmetic N W) (g : Graph) (source : Nat) : Nat → Nat → W
  | 0, _ => ops.wideOne
  | d + 1, v => ops.wideSum (g.countsAbove source g.vertices (pathCount ops g source d) v)

/-- The sum of the path counts that flow into a vertex does not depend on the order of the additions. -/
def OrderFree (ops : ScoreArithmetic N W) (g : Graph) (source : Nat) : Prop :=
  ∀ d v, g.AtDepth source (d + 1) v → ∀ terms : List W,
    terms.Perm (g.countsAbove source g.vertices (g.pathCount ops source d) v) →
      ops.wideSum terms = g.pathCount ops source (d + 1) v

/-- Where two numbers can be added in either order, so can all. -/
theorem orderFree_of_rightComm (g : Graph) (source : Nat)
    (hcomm : ∀ x y z, ops.wideAdd (ops.wideAdd x y) z = ops.wideAdd (ops.wideAdd x z) y) :
    OrderFree ops g source := by
  intro d v _ terms hperm
  have : RightCommutative ops.wideAdd := ⟨hcomm⟩
  exact hperm.foldl_eq ops.wideZero

/-- However the vertices that can be reached are listed, the counts that they hand on are the path
counts. -/
theorem Collects.count_eq {counts : Array W} {order : List Nat}
    (h : Collects ops source (g.descents source (order.flatMap g.placedArcs)) counts)
    (hsize : counts.size = g.numVertices) (hnodup : order.Nodup)
    (hmem : ∀ u, u ∈ order ↔ g.Reachable source u) (hfree : OrderFree ops g source)
    (hwell : g.WellFormed) (hsource : source < g.numVertices) (hv : g.AtDepth source d v) :
    counts.getD v ops.wideZero = g.pathCount ops source d v := by
  induction d generalizing v with
  | zero =>
    rw [h v (hsize.symm ▸ hv.lt_numVertices hwell hsource), inflow_descents,
      if_pos (Graph.AtDepth.zero_iff.mp hv)]
    have hnone : g.countsAbove source order (counts.getD · ops.wideZero) v = [] := by
      rw [Graph.countsAbove, List.flatMap_eq_nil_iff]
      intro u _
      rw [if_neg]
      rintro ⟨k, _, hk⟩
      have := hk.unique hv
      omega
    rw [hnone]
    rfl
  | succ d ih =>
    have hne : v ≠ source := by
      intro heq
      have := (Graph.AtDepth.zero_iff.mpr heq).unique hv
      omega
    have habove : g.countsAbove source order (counts.getD · ops.wideZero) v =
        g.countsAbove source order (g.pathCount ops source d) v := by
      rw [Graph.countsAbove_eq_map (f := id) fun u hu => ih (hv.descends_to_iff.mp hu), List.map_id]
    rw [h v (hsize.symm ▸ hv.lt_numVertices hwell hsource), inflow_descents, if_neg hne, habove]
    apply hfree d v hv
    apply Graph.countsAbove_perm _ hnodup List.nodup_range
    rintro u ⟨k, hk, _⟩
    rw [hmem, List.mem_range]
    exact iff_of_true (Graph.reachable_iff_exists_atDepth.mpr ⟨k, hk⟩) (hk.lt_numVertices hwell hsource)

/-! ### Shares -/

/-- What is handed back depends only on the counts and the shares of a vertex and its successors. -/
theorem Graph.handedBack_eq {counts others : Array W} {shares shares' : Array N}
    (hself : counts.getD u ops.wideZero = others.getD u ops.wideZero)
    (hcounts : ∀ v ∈ g.successors source u, counts.getD v ops.wideZero = others.getD v ops.wideZero)
    (hshares : ∀ v ∈ g.successors source u, shares.getD v ops.zero = shares'.getD v ops.zero) :
    g.handedBack ops source counts shares u = g.handedBack ops source others shares' u := by
  apply List.foldl_ext
  intro share v hv
  rw [hself, hcounts v hv, hshares v hv]

/-- However the levels of a source are listed, its vertices are settled with the same shares. -/
theorem Shares.Settles.share_eq_share {counts others : Array W} {before before' : Array N}
    {done done' : List Nat} {t t' : Shares N} {levels : List (List Nat)}
    (h : t.Settles ops g source counts before done) (h' : t'.Settles ops g source others before' done')
    (hlevel : ∀ d, IsLevel g source d (levels.getD d []))
    (hdone : ∀ u, u ∈ done ↔ g.Reachable source u) (hdone' : ∀ u, u ∈ done' ↔ g.Reachable source u)
    (hcounts : ∀ d v, g.AtDepth source d v → counts.getD v ops.wideZero = others.getD v ops.wideZero)
    (hu : g.AtDepth source d u) : t.shares.getD u ops.zero = t'.shares.getD u ops.zero := by
  -- The induction is on the number of levels from the vertex on.
  obtain ⟨k, hk⟩ : ∃ k, levels.length ≤ d + k := ⟨levels.length, by omega⟩
  induction k generalizing d u with
  | zero =>
    have := (hlevel d).lt_length hu
    omega
  | succ k ih =>
    have hreachable := Graph.reachable_iff_exists_atDepth.mpr ⟨d, hu⟩
    have hsuccessor (v : Nat) (hv : v ∈ g.successors source u) : g.AtDepth source (d + 1) v :=
      hu.descends_iff.mp (Graph.mem_successors.mp hv).2
    rw [h.shares_eq u ((hdone u).mpr hreachable), h'.shares_eq u ((hdone' u).mpr hreachable)]
    exact Graph.handedBack_eq (hcounts d u hu) (fun v hv => hcounts (d + 1) v (hsuccessor v hv))
      fun v hv => ih (hsuccessor v hv) (by omega)

/-- What a source adds to some scores does not depend on how its levels are listed. -/
theorem AddsSource.unique {before after after' : Array N} (h : AddsSource ops g source before after)
    (h' : AddsSource ops g source before after') (hfree : OrderFree ops g source)
    (hwell : g.WellFormed) (hsource : source < g.numVertices) : after = after' := by
  obtain ⟨levels, counts, t, hlevel, hsize, hcollects, hsettles, rfl⟩ := h
  obtain ⟨levels', counts', t', hlevel', hsize', hcollects', hsettles', rfl⟩ := h'
  have hdone (u : Nat) : u ∈ levels.reverse.flatten ↔ g.Reachable source u :=
    IsLevel.mem_flatten_reverse hlevel
  have hdone' (u : Nat) : u ∈ levels'.reverse.flatten ↔ g.Reachable source u :=
    IsLevel.mem_flatten_reverse hlevel'
  have hcounts (d v : Nat) (hv : g.AtDepth source d v) :
      counts.getD v ops.wideZero = counts'.getD v ops.wideZero :=
    calc counts.getD v ops.wideZero
        = g.pathCount ops source d v :=
          hcollects.count_eq hsize (Graded.ofLevels fun d _ => hlevel d).nodup_flatten
            (fun _ => IsLevel.mem_flatten hlevel) hfree hwell hsource hv
      _ = counts'.getD v ops.wideZero :=
          (hcollects'.count_eq hsize' (Graded.ofLevels fun d _ => hlevel' d).nodup_flatten
            (fun _ => IsLevel.mem_flatten hlevel') hfree hwell hsource hv).symm
  apply eq_of_getElem?_eq hsettles.scores_size hsettles'.scores_size
  intro u hu
  rw [getElem?_eq_getD ops.zero (hsettles.scores_size.symm ▸ hu),
    getElem?_eq_getD ops.zero (hsettles'.scores_size.symm ▸ hu), Option.some.injEq]
  by_cases hreachable : g.Reachable source u
  · obtain ⟨d, hd⟩ := Graph.reachable_iff_exists_atDepth.mp hreachable
    rw [hsettles.scores_eq u ((hdone u).mpr hreachable), hsettles'.scores_eq u ((hdone' u).mpr hreachable),
      hsettles.share_eq_share hsettles' hlevel hdone hdone' hcounts hd]
  · rw [hsettles.kept u fun hu => hreachable ((hdone u).mp hu),
      hsettles'.kept u fun hu => hreachable ((hdone' u).mp hu)]

/-! ### Scores -/

/-- Processing a source adds it to the scores. -/
theorem CentralityWorkspace.process_addsSource (ops : ScoreArithmetic N W) {w : CentralityWorkspace N W}
    (h : w.Ready g) (hwell : g.WellFormed) (hsource : source < g.numVertices) :
    Yields (w.process ops g source) fun next =>
      next.Ready g ∧ AddsSource ops g source w.shares.scores next.shares.scores := by
  apply (process_yields h hwell hsource).mono
  intro next ⟨hnext, levels, hcounted, hsettles⟩
  exact ⟨hnext, levels, next.paths.counts, next.shares, hcounted.level, hcounted.passes.counts_size,
    hcounted.passes.collects, hsettles, rfl⟩

/-- From equal scores on, both computations add up some sources to equal scores. -/
theorem foldlM_process_eq (sources : List Nat) {w : CentralityWorkspace N W} (h : w.Ready g)
    (hwell : g.WellFormed) (hsources : ∀ source ∈ sources, source < g.numVertices)
    (hfree : ∀ source ∈ sources, OrderFree ops g source) :
    ∃ last, sources.foldlM (CentralityWorkspace.process ops g) w = .ok last ∧
      addSourcesSerially ops g sources w.shares.scores = .ok (.inr last.shares.scores) := by
  induction sources generalizing w with
  | nil => exact ⟨w, rfl, rfl⟩
  | cons source rest ih =>
    have hsource := hsources source List.mem_cons_self
    obtain ⟨next, hprocess, hready, hadds⟩ := CentralityWorkspace.process_addsSource ops h hwell hsource
    obtain ⟨depths, hdepths, hisDepths⟩ := Graph.depthsFrom_yields hwell hsource
    obtain ⟨scores, hscores, _, hadds'⟩ :=
      addSourceSerially_yields ops hisDepths hwell hsource h.scores_size
    have hequal : scores = next.shares.scores :=
      hadds'.unique hadds (hfree source List.mem_cons_self) hwell hsource
    obtain ⟨last, hlast, hserial⟩ := ih hready (fun other hother => hsources other (by simp [hother]))
      fun other hother => hfree other (by simp [hother])
    refine ⟨last, by rw [List.foldlM_cons, hprocess, ok_bind, hlast], ?_⟩
    rw [addSourcesSerially, if_neg (Nat.not_le.mpr hsource), hdepths, ok_bind, hscores, ok_bind, hequal,
      hserial]

/-- Whatever the arithmetic is, the scores that the kernel returns for a built graph are the ones that are
recomputed serially, as long as the sum of the path counts that flow into a vertex does not depend on the
order of the additions. -/
theorem centrality_eq_serial {o : BuildOptions} {edges : List Edge} {sources : List Nat}
    (hbuild : Graph.build o edges = .ok g) (hsources : ∀ source ∈ sources, source < g.numVertices)
    (hfree : ∀ source ∈ sources, OrderFree ops g source) :
    ∃ scores events, g.centrality ops sources = .ok ⟨scores, events⟩ ∧
      g.centralitySerially ops sources = .ok (.inr scores) := by
  obtain ⟨w, hrun, hserial⟩ := foldlM_process_eq sources (CentralityWorkspace.ready_start ops g)
    (Graph.wellFormed_build hbuild) hsources hfree
  have hfound : sources.find? (g.numVertices ≤ ·) = none := by
    rw [List.find?_eq_none]
    intro source hsource
    have := hsources source hsource
    simpa using this
  refine ⟨normalizeScores ops w.shares.scores,
    w.events.toList ++ [.centralityComplete sources.length g.numVertices], ?_, ?_⟩
  · rw [Graph.centrality, hfound, Graph.accumulateCentrality, hrun]
    rfl
  · change addSourcesSerially ops g sources (Array.replicate g.numVertices ops.zero) = _ at hserial
    rw [Graph.centralitySerially, hserial]
    rfl

/-- A source that comes twice, two arcs side by side, two ways to one vertex, and a vertex that cannot be
reached. -/
theorem centrality_eq_serial_parallel :
    ∃ g, Graph.build { numVertices := some 5 }
        [⟨0, 1, 1⟩, ⟨0, 1, 2⟩, ⟨0, 2, 1⟩, ⟨1, 3, 1⟩, ⟨2, 3, 1⟩] = .ok g ∧
      (∀ source ∈ [0, 0, 1], OrderFree .exact g source) ∧
      ∃ scores events, g.centrality .exact [0, 0, 1] = .ok ⟨scores, events⟩ ∧
        g.centralitySerially .exact [0, 0, 1] = .ok (.inr scores) := by
  refine ⟨_, rfl, ?_⟩
  have hbuild : Graph.build { numVertices := some 5 }
      [⟨0, 1, 1⟩, ⟨0, 1, 2⟩, ⟨0, 2, 1⟩, ⟨1, 3, 1⟩, ⟨2, 3, 1⟩] = .ok _ := rfl
  have hfree (g : Graph) (source : Nat) : OrderFree .exact g source :=
    orderFree_of_rightComm g source fun x y z => by
      cases x <;> cases y <;> cases z <;> simp [ScoreArithmetic.exact, add_right_comm]
  exact ⟨fun source _ => hfree _ source,
    centrality_eq_serial hbuild (by decide) fun source _ => hfree _ source⟩

end GraphKernels
