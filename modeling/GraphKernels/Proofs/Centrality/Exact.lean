import GraphKernels.Proofs.Arithmetic
import GraphKernels.Proofs.Centrality.Settling
import GraphKernels.Proofs.Centrality.Share

/-!
# Exact centrality

Without rounding, the counts of a source are the numbers of shortest routes, and what its levels are
settled with are the shares of the vertices in these routes. The counts follow level by level from the
source down, and the shares from the furthest level up.
-/

namespace GraphKernels

open Finset

variable {g : Graph} {source d u v : Nat} {levels : List (List Nat)} {s : PathCounting (Option ℚ)}

/-! ### Counts -/

/-- The numbers of shortest routes that come from one level up are those that are handed on. -/
theorem sum_countsAbove (order : List Nat) (v : Nat) :
    (g.countsAbove source order (fun u => (g.shortestCount source u : ℚ)) v).sum =
      (order.map fun u => (g.handedOn source u v : ℚ)).sum := by
  rw [Graph.countsAbove, List.flatMap_def, List.sum_flatten, List.map_map]
  refine congrArg List.sum (List.map_congr_left fun u _ => ?_)
  rw [Function.comp_apply, Graph.handedOn]
  split <;> simp

namespace PathCounting.Counted

/-- What the counted vertices hand on is what all vertices do. -/
theorem sum_handedOn (h : s.Counted .exact g source levels) (hwell : g.WellFormed)
    (hsource : source < g.numVertices) (v : Nat) :
    (levels.flatten.map fun u => (g.handedOn source u v : ℚ)).sum =
      ∑ u ∈ range g.numVertices, (g.handedOn source u v : ℚ) := by
  rw [← List.sum_toFinset _ (Graded.ofLevels fun d _ => h.level d).nodup_flatten]
  apply sum_subset
  · intro u hu
    have hreachable := h.mem_flatten.mp (List.mem_toFinset.mp hu)
    exact mem_range.mpr (hreachable.atDepth_hops.lt_numVertices hwell hsource)
  · intro u _ hu
    rw [Graph.handedOn, if_neg, Nat.cast_zero]
    rintro ⟨d, hd, _⟩
    exact hu (List.mem_toFinset.mpr (h.mem_flatten.mpr hd.reachable))

/-- Where the counts one level up are known, the count of a vertex is what it starts with and what is
handed on to it. -/
theorem count_eq_add (h : s.Counted .exact g source levels) (hwell : g.WellFormed)
    (hsource : source < g.numVertices) (hv : v < g.numVertices)
    (hknown : ∀ u, g.Descends source u v →
      s.counts.getD u ScoreArithmetic.exact.wideZero = some (g.shortestCount source u : ℚ)) :
    s.counts.getD v ScoreArithmetic.exact.wideZero = some ((if v = source then 1 else 0) +
      ∑ u ∈ range g.numVertices, (g.handedOn source u v : ℚ)) := by
  have hstart : (if v = source then ScoreArithmetic.exact.wideOne else ScoreArithmetic.exact.wideZero) =
      some (if v = source then 1 else 0 : ℚ) := by split <;> simp
  rw [h.passes.collects v (h.passes.counts_size.symm ▸ hv), inflow_descents, Graph.countsAbove_eq_map hknown,
    hstart, ScoreArithmetic.foldl_exact_wideAdd, sum_countsAbove, h.sum_handedOn hwell hsource]

/-- The count of a vertex is the number of its shortest routes. -/
theorem count_eq (h : s.Counted .exact g source levels) (hwell : g.WellFormed)
    (hsource : source < g.numVertices) (hv : g.AtDepth source d v) :
    s.counts.getD v ScoreArithmetic.exact.wideZero = some (g.shortestCount source v : ℚ) := by
  induction d generalizing v with
  | zero =>
    have hself := Graph.AtDepth.zero_iff.mp hv
    have hnone (u : Nat) : ¬ g.Descends source u v := fun ⟨k, _, hk⟩ => by
      have := hk.unique hv
      omega
    rw [h.count_eq_add hwell hsource (hv.lt_numVertices hwell hsource)
      fun u hu => absurd hu (hnone u), if_pos hself, hv.shortestCount_eq, Graph.card_routes_zero,
      if_pos hself.symm]
    simp [Graph.handedOn, hnone]
  | succ d ih =>
    have hne : v ≠ source := fun heq => by
      have := (Graph.AtDepth.zero_iff.mpr heq).unique hv
      omega
    have hknown (u : Nat) (hdescends : g.Descends source u v) :
        s.counts.getD u ScoreArithmetic.exact.wideZero = some (g.shortestCount source u : ℚ) :=
      ih (hv.descends_to_iff.mp hdescends)
    rw [h.count_eq_add hwell hsource (hv.lt_numVertices hwell hsource) hknown, if_neg hne, zero_add,
      hv.shortestCount_eq_sum hwell hsource, Nat.cast_sum]

end PathCounting.Counted

/-! ### Shares -/

/-- What is passed back, in the proportion of its ratio, is added to a share. -/
theorem dependency_exact (share ratio passed : ℚ) :
    dependency .exact (some share) (some ratio) (some passed) = some (share + ratio * (1 + passed)) := by
  rw [dependency, ScoreArithmetic.exact_wideOne]
  rfl

/-- What several vertices pass back, in the proportions of their ratios, adds up. -/
theorem foldl_dependency_exact {ratio passed : Nat → Option ℚ} {part back : Nat → ℚ} {items : List Nat}
    {share : Option ℚ} {start : ℚ} (hshare : share = some start)
    (hratio : ∀ v ∈ items, ratio v = some (part v)) (hpassed : ∀ v ∈ items, passed v = some (back v)) :
    items.foldl (fun share v => dependency .exact share (ratio v) (passed v)) share =
      some (start + (items.map fun v => part v * (1 + back v)).sum) := by
  induction items generalizing share start with
  | nil => simpa using hshare
  | cons v rest ih =>
    have hnext : dependency .exact share (ratio v) (passed v) = some (start + part v * (1 + back v)) := by
      rw [hshare, hratio v List.mem_cons_self, hpassed v List.mem_cons_self, dependency_exact]
    rw [List.foldl_cons, ih hnext (fun w hw => hratio w (List.mem_cons_of_mem _ hw))
      (fun w hw => hpassed w (List.mem_cons_of_mem _ hw)), List.map_cons, List.sum_cons, add_assoc]

namespace Shares.Settles

variable {t : Shares (Option ℚ)} {before : Array (Option ℚ)}

/-- The settled share of a vertex is its share in the shortest routes. Its successors have shortest routes
themselves, so none of their counts is zero when it is divided by. -/
theorem share_eq (h : t.Settles .exact g source s.counts before levels.reverse.flatten)
    (hcounted : s.Counted .exact g source levels) (hwell : g.WellFormed)
    (hsource : source < g.numVertices) (hu : g.AtDepth source d u) :
    t.shares.getD u ScoreArithmetic.exact.zero = some (g.shareFrom source u) := by
  -- The induction is on the number of levels from the vertex on.
  obtain ⟨k, hk⟩ : ∃ k, levels.length ≤ d + k := ⟨levels.length, by omega⟩
  induction k generalizing d u with
  | zero =>
    have := (hcounted.level d).lt_length hu
    omega
  | succ k ih =>
    have hdone := (IsLevel.mem_flatten_reverse hcounted.level).mpr hu.reachable
    have hsuccessor (v : Nat) (hv : v ∈ g.successors source u) : g.AtDepth source (d + 1) v :=
      hu.descends_iff.mp (Graph.mem_successors.mp hv).2
    have hratio (v : Nat) (hv : v ∈ g.successors source u) : ScoreArithmetic.exact.wideDiv
        (s.counts.getD u ScoreArithmetic.exact.wideZero) (s.counts.getD v ScoreArithmetic.exact.wideZero) =
          some ((g.shortestCount source u : ℚ) / g.shortestCount source v) := by
      have hpos := (hsuccessor v hv).shortestCount_pos
      rw [hcounted.count_eq hwell hsource hu, hcounted.count_eq hwell hsource (hsuccessor v hv)]
      exact ScoreArithmetic.exact_wideDiv (by positivity)
    have hpassed (v : Nat) (hv : v ∈ g.successors source u) :
        t.shares.getD v ScoreArithmetic.exact.zero = some (g.shareFrom source v) :=
      ih (hsuccessor v hv) (by omega)
    rw [h.shares_eq u hdone, Graph.handedBack,
      foldl_dependency_exact ScoreArithmetic.exact_zero hratio hpassed, zero_add,
      Graph.shareFrom_eq_sum hwell hsource hu.reachable]

/-- Settling adds to every score the share of its vertex, which is nothing if it cannot be reached. -/
theorem score_eq {score : ℚ} (h : t.Settles .exact g source s.counts before levels.reverse.flatten)
    (hcounted : s.Counted .exact g source levels) (hwell : g.WellFormed)
    (hsource : source < g.numVertices)
    (hbefore : before.getD u ScoreArithmetic.exact.zero = some score) :
    t.scores.getD u ScoreArithmetic.exact.zero = some (score + g.shareFrom source u) := by
  have hmem : u ∈ levels.reverse.flatten ↔ g.Reachable source u :=
    IsLevel.mem_flatten_reverse hcounted.level
  by_cases hu : g.Reachable source u
  · rw [h.scores_eq u (hmem.mpr hu), hbefore, h.share_eq hcounted hwell hsource hu.atDepth_hops,
      ScoreArithmetic.exact_add]
  · rw [h.kept u fun hdone => hu (hmem.mp hdone), hbefore, Graph.shareFrom_eq_zero hu, add_zero]

end Shares.Settles

/-! ### Scores -/

/-- The scores that some sources add up to are the sums of the shares of each of them. -/
theorem accumulateCentrality_yields {sources : List Nat} (hwell : g.WellFormed)
    (hsources : ∀ source ∈ sources, source < g.numVertices) :
    Yields (g.accumulateCentrality .exact sources) fun w => w.Ready g ∧
      ∀ u < g.numVertices, w.shares.scores.getD u ScoreArithmetic.exact.zero =
        some (sources.map fun source => g.shareFrom source u).sum := by
  apply Yields.foldlM fun (done : List Nat) (w : CentralityWorkspace (Option ℚ) (Option ℚ)) =>
    w.Ready g ∧ ∀ u < g.numVertices, w.shares.scores.getD u ScoreArithmetic.exact.zero =
      some (done.map fun source => g.shareFrom source u).sum
  · refine ⟨CentralityWorkspace.ready_start _ g, fun u hu => ?_⟩
    simp [CentralityWorkspace.start, hu]
  · intro done source rest w hitems ⟨hready, hscores⟩
    have hsource := hsources source (by simp [hitems])
    apply (CentralityWorkspace.process_yields hready hwell hsource).mono
    intro next ⟨hnext, levels, hcounted, hsettles⟩
    refine ⟨hnext, fun u hu => ?_⟩
    rw [hsettles.score_eq hcounted hwell hsource (hscores u hu), List.map_append, List.sum_append,
      List.map_singleton, List.sum_singleton]

/-- Without rounding, the score of every vertex of a built graph is the sum of its shares in the shortest
routes from each of the sources. It is a number, so no count that was divided by was zero: there are
shortest routes to every vertex that can be reached. -/
theorem accumulateCentrality_exact {o : BuildOptions} {edges : List Edge} {sources : List Nat}
    (hbuild : Graph.build o edges = .ok g) (hsources : ∀ source ∈ sources, source < g.numVertices) :
    (∃ w, g.accumulateCentrality .exact sources = .ok w ∧ w.shares.scores.size = g.numVertices ∧
      ∀ u < g.numVertices, w.shares.scores[u]? = some (some (sources.map fun source =>
        ∑ t ∈ (g.reached source).erase u,
          (g.shortestCountThrough source t u : ℚ) / g.shortestCount source t).sum)) ∧
      ∀ source ∈ sources, ∀ t, g.Reachable source t → 0 < g.shortestCount source t := by
  obtain ⟨w, hrun, hready, hscores⟩ :=
    accumulateCentrality_yields (Graph.wellFormed_build hbuild) hsources
  refine ⟨⟨w, hrun, hready.scores_size, fun u hu => ?_⟩,
    fun source _ t ht => ht.atDepth_hops.shortestCount_pos⟩
  rw [getElem?_eq_getD ScoreArithmetic.exact.zero (hready.scores_size.symm ▸ hu), hscores u hu]
  rfl

/-- A source that comes twice, two arcs side by side, two ways to one vertex, and a vertex that cannot be
reached. -/
theorem accumulateCentrality_exact_parallel :
    ∃ g, Graph.build { numVertices := some 5 }
        [⟨0, 1, 1⟩, ⟨0, 1, 2⟩, ⟨0, 2, 1⟩, ⟨1, 3, 1⟩, ⟨2, 3, 1⟩] = .ok g ∧
      (∃ w, g.accumulateCentrality .exact [0, 0, 1] = .ok w ∧
        w.shares.scores = #[some 6, some (7 / 3), some (2 / 3), some 0, some 0] ∧
        ∀ u < 5, w.shares.scores[u]? = some (some ([0, 0, 1].map fun source =>
          ∑ t ∈ (g.reached source).erase u,
            (g.shortestCountThrough source t u : ℚ) / g.shortestCount source t).sum)) ∧
      ∀ source ∈ [0, 0, 1], ∀ t, g.Reachable source t → 0 < g.shortestCount source t := by
  obtain ⟨g, hbuild, hcount, hscores⟩ : ∃ g, Graph.build { numVertices := some 5 }
      [⟨0, 1, 1⟩, ⟨0, 1, 2⟩, ⟨0, 2, 1⟩, ⟨1, 3, 1⟩, ⟨2, 3, 1⟩] = .ok g ∧ g.numVertices = 5 ∧
      (g.accumulateCentrality .exact [0, 0, 1]).toOption.map (·.shares.scores) =
        some #[some 6, some (7 / 3), some (2 / 3), some 0, some 0] := ⟨_, rfl, rfl, by decide +kernel⟩
  obtain ⟨⟨w, hrun, _, hsum⟩, hpos⟩ := accumulateCentrality_exact hbuild
    (show ∀ source ∈ [0, 0, 1], source < g.numVertices by rw [hcount]; decide)
  rw [hrun, Except.toOption, Option.map_some, Option.some.injEq] at hscores
  rw [hcount] at hsum
  exact ⟨g, hbuild, ⟨w, hrun, hscores, hsum⟩, hpos⟩

end GraphKernels
