import GraphKernels.Centrality.Check
import GraphKernels.Proofs.Centrality.Settling
import GraphKernels.Proofs.Hops.Depths

/-!
# Centrality computed serially

The serial computation takes its levels from the hop depths, in ascending order of vertices, and looks the
depths of both ends of an arc up again whenever it asks for a successor. It does the same as the kernel in
another order: its counts are what the arcs that lead one level down hand on, and its levels are settled
from the furthest one up. It ends for every well-formed graph.
-/

namespace GraphKernels

variable {N W : Type} {ops : ScoreArithmetic N W} {g : Graph} {source u v d : Nat}
  {depths : Array (Option Nat)} {levels : List (List Nat)}

/-! ### Levels by depth -/

/-- Each of some numbers lies below the largest one's successor. -/
theorem lt_foldl_max {α : Type} (key : α → Nat) {items : List α} {a : α} (ha : a ∈ items)
    (start : Nat) : key a < items.foldl (fun count item => max count (key item + 1)) start := by
  have hmono (rest : List α) (start : Nat) :
      start ≤ rest.foldl (fun count item => max count (key item + 1)) start := by
    induction rest generalizing start with
    | nil => exact Nat.le_refl start
    | cons item rest ih => exact (Nat.le_max_left _ _).trans (ih _)
  induction items generalizing start with
  | nil => exact absurd ha List.not_mem_nil
  | cons item rest ih =>
    rw [List.foldl_cons]
    rcases List.mem_cons.mp ha with rfl | ha
    · have := hmono rest (max start (key a + 1))
      omega
    · exact ih ha _

/-- The vertices that have depths, each with its depth. -/
def depthPairs (depths : Array (Option Nat)) : List (Nat × Nat) :=
  depths.toList.zipIdx.filterMap fun (depth, u) => depth.map (·, u)

/-- A vertex is paired with its depth. -/
theorem mem_depthPairs : (d, u) ∈ depthPairs depths ↔ depths.getD u none = some d := by
  rw [depthPairs, List.mem_filterMap, Array.getD_eq_getD_getElem?]
  constructor
  · intro ⟨(depth, w), hmem, hpair⟩
    rw [List.mem_zipIdx_iff_getElem?, Array.getElem?_toList] at hmem
    obtain ⟨k, hk, heq⟩ := Option.map_eq_some_iff.mp hpair
    cases heq
    rw [hmem, Option.getD_some, hk]
  · intro h
    cases hentry : depths[u]? with
    | none =>
      rw [hentry] at h
      cases h
    | some depth =>
      rw [hentry, Option.getD_some] at h
      refine ⟨(depth, u), ?_, by rw [h]; rfl⟩
      rw [List.mem_zipIdx_iff_getElem?, Array.getElem?_toList, hentry]

/-- The pairs ascend by vertex. -/
theorem depthPairs_pairwise : (depthPairs depths).Pairwise fun p q => p.2 < q.2 := by
  have hascends : depths.toList.zipIdx.Pairwise fun p q => p.2 < q.2 := by
    rw [← List.pairwise_map (f := Prod.snd) (R := (· < ·)), List.zipIdx_map_snd]
    exact List.pairwise_lt_range'
  rw [depthPairs, List.pairwise_filterMap]
  refine hascends.imp fun hlt p hp q hq => ?_
  obtain ⟨_, _, rfl⟩ := Option.map_eq_some_iff.mp hp
  obtain ⟨_, _, rfl⟩ := Option.map_eq_some_iff.mp hq
  exact hlt

/-- The vertices listed at a depth are those paired with it. -/
theorem depthLevels_getD (depths : Array (Option Nat)) (d : Nat) : (depthLevels depths).getD d [] =
    ((depthPairs depths).filter (·.1 == d)).map Prod.snd := by
  have hlevels : depthLevels depths = (distribute ((depthPairs depths).foldl
      (fun count pair => max count (pair.1 + 1)) 0) Prod.fst (depthPairs depths)).toList.map fun level =>
        level.toList.map Prod.snd := rfl
  generalize hcount : (depthPairs depths).foldl (fun count pair => max count (pair.1 + 1)) 0 = count
    at hlevels
  rw [hlevels]
  by_cases hd : d < count
  · rw [← distribute_getD count Prod.fst (depthPairs depths) d hd]
    have hsize : d < (distribute count Prod.fst (depthPairs depths)).size := by rwa [distribute_size]
    rw [List.getD_eq_getElem?_getD, List.getElem?_map, Array.getElem?_toList,
      getElem?_eq_getD #[] hsize]
    rfl
  · rw [List.getD_eq_default _ _ (by simp [distribute_size]; omega)]
    symm
    rw [List.map_eq_nil_iff, List.filter_eq_nil_iff]
    intro pair hpair heq
    have hlt := lt_foldl_max Prod.fst hpair 0
    rw [hcount] at hlt
    rw [beq_iff_eq] at heq
    omega

/-- The lists are the levels of the source. -/
theorem IsDepths.isLevel (h : IsDepths g source depths) (d : Nat) :
    IsLevel g source d ((depthLevels depths).getD d []) where
  nodup := by
    rw [depthLevels_getD, List.Nodup, List.pairwise_map]
    exact (depthPairs_pairwise.filter _).imp Nat.ne_of_lt
  mem_iff v := by
    rw [depthLevels_getD, ← h.getD_eq_some_iff, ← mem_depthPairs]
    simp

/-! ### Counting -/

/-- An arc leads to a successor exactly when it leads one level down. -/
theorem IsDepths.isSuccessor_eq (h : IsDepths g source depths) (hu : u < g.numVertices)
    (hv : v < g.numVertices) : isSuccessor depths u v = .ok (decide (g.Descends source u v)) := by
  have hdescends : g.Descends source u v ↔
      ∃ d, depths.getD u none = some d ∧ depths.getD v none = some (d + 1) := by
    simp only [h.getD_eq_some_iff, Graph.Descends]
  rw [isSuccessor, readAt_eq_getD none (h.size_eq.symm ▸ hu), ok_bind,
    readAt_eq_getD none (h.size_eq.symm ▸ hv), ok_bind]
  cases hdepth : depths.getD u none with
  | none =>
    rw [decide_eq_false fun hdown => by simp [hdescends, hdepth] at hdown]
    rfl
  | some d =>
    cases hfurther : depths.getD v none with
    | none =>
      rw [decide_eq_false fun hdown => by simp [hdescends, hfurther] at hdown]
      rfl
    | some k =>
      change Except.ok (k == d + 1) = _
      rw [Except.ok.injEq, Bool.eq_iff_iff, beq_iff_eq, decide_eq_true_eq, hdescends, hdepth, hfurther]
      simp

/-- Levels list their vertices by ascending depth, so no vertex comes after one that it has an arc down
to. -/
theorem Graded.pairwise_flatten (h : Graded g source levels) :
    levels.flatten.Pairwise fun u v => ¬ g.Descends source v u := by
  rw [List.pairwise_flatten]
  constructor
  · intro items hitems
    obtain ⟨d, hd, rfl⟩ := List.getElem_of_mem hitems
    rw [← List.getD_eq_getElem levels [] hd]
    refine (h d).1.imp_of_mem fun hu hv _ hdescends => ?_
    have := (((h d).2 _ hv).descends_iff.mp hdescends).unique ((h d).2 _ hu)
    omega
  · refine h.pairwise_getElem.imp fun hlt u hu v hv hdescends => ?_
    obtain ⟨d, k, hdk, hd, hk⟩ := hlt u hu v hv
    have := (hk.descends_iff.mp hdescends).unique hd
    omega

/-- An arc hands on the count of its source if it leads one level down, as long as no vertex before has
an arc from its target. -/
theorem passCount_yields {counts : Array W} {seen : List PlacedArc} {a : PlacedArc}
    (h : IsDepths g source depths) (hwell : g.WellFormed) (harc : g.ArcAt a.position a.source a.target)
    (hsize : counts.size = g.numVertices) (hcollects : Collects ops source (g.descents source seen) counts)
    (hother : g.Descends source a.source a.target → ∀ b ∈ seen ++ [a], b.source ≠ a.target) :
    Yields (passCount ops depths a.source counts a.target) fun next => next.size = g.numVertices ∧
      Collects ops source (g.descents source (seen ++ [a])) next := by
  have hhas : g.HasArc a.source a.target := Graph.hasArc_iff_exists_arcAt.mpr ⟨_, harc⟩
  have hu := hwell.lt_of_hasArc hhas
  have hv := hwell.lt_of_hasArc' hhas
  rw [passCount, h.isSuccessor_eq hu hv, ok_bind]
  by_cases hdescends : g.Descends source a.source a.target
  · rw [decide_eq_true hdescends, if_pos rfl, readAt_eq_getD ops.wideZero (hsize.symm ▸ hv), ok_bind,
      readAt_eq_getD ops.wideZero (hsize.symm ▸ hu), ok_bind,
      writeAt_eq_setIfInBounds _ (hsize.symm ▸ hv), Yields.ok_iff, Graph.descents_concat seen hdescends]
    refine ⟨by rw [Array.size_setIfInBounds, hsize], hcollects.handOn (hsize.symm ▸ hv) fun b hb => ?_⟩
    refine hother hdescends b (List.mem_append.mpr ((List.mem_append.mp hb).imp_left fun hb => ?_))
    exact (List.mem_filter.mp hb).1
  · rw [decide_eq_false hdescends, Graph.descents_concat_of_not seen hdescends]
    exact .ok ⟨hsize, hcollects⟩

/-- The counts are what the arcs of all levels hand on. -/
theorem passCounts_yields {start : Array W} (h : IsDepths g source depths) (hwell : g.WellFormed)
    (hsource : source < g.numVertices) (hgraded : Graded g source levels)
    (hsize : start.size = g.numVertices) (hstart : Collects ops source [] start) :
    Yields (levels.flatten.foldlM (fun counts u => do
      (← g.outNeighbors u).foldlM (passCount ops depths u) counts) start) fun counts =>
        counts.size = g.numVertices ∧
          Collects ops source (g.descents source (levels.flatten.flatMap g.placedArcs)) counts := by
  apply Yields.foldlM fun (done : List Nat) (counts : Array W) => counts.size = g.numVertices ∧
    Collects ops source (g.descents source (done.flatMap g.placedArcs)) counts
  · exact ⟨hsize, hstart⟩
  · rintro done u rest counts hitems ⟨hsize, hcollects⟩
    obtain ⟨d, _, _, hdepth⟩ := hgraded.exists_atDepth (v := u) (by simp [hitems])
    have hlt := hdepth.lt_numVertices hwell hsource
    have hpairwise := hgraded.pairwise_flatten
    rw [hitems, List.pairwise_append] at hpairwise
    rw [hwell.outNeighbors_eq hlt, ok_bind, ← Graph.map_fst_placedTargets, List.foldlM_map,
      List.flatMap_append, List.flatMap_singleton, Graph.placedArcs]
    apply Yields.foldlM fun (seen : List (Nat × Nat)) (counts : Array W) => counts.size = g.numVertices ∧
      Collects ops source (g.descents source (done.flatMap g.placedArcs ++
        seen.map fun arc => (⟨u, arc.1, arc.2⟩ : PlacedArc))) counts
    · rw [List.map_nil, List.append_nil]
      exact ⟨hsize, hcollects⟩
    · rintro seen ⟨v, position⟩ rest counts harcs ⟨hsize, hcollects⟩
      have harc : g.ArcAt position u v := by simp [Graph.ArcAt, harcs]
      rw [List.map_append, ← List.append_assoc]
      apply passCount_yields (a := ⟨u, v, position⟩) h hwell harc hsize hcollects
      intro hdescends b hb heq
      rw [List.append_assoc, List.mem_append, List.mem_flatMap] at hb
      rcases hb with ⟨w, hw, hb⟩ | hb
      · -- The vertices before this one lie no further down.
        rw [(Graph.mem_placedArcs.mp hb).1] at heq
        exact hpairwise.2.2 w hw u List.mem_cons_self (heq ▸ hdescends)
      · have hself : b.source = u := by
          rw [List.mem_append, List.mem_map, List.mem_singleton] at hb
          rcases hb with ⟨arc, _, rfl⟩ | rfl <;> rfl
        obtain ⟨d, hd, hd'⟩ := hdescends
        have := hd.unique (heq.symm.trans hself ▸ hd')
        omega

/-! ### Settling -/

/-- The successors of a vertex hand back what they have, each in turn. -/
theorem passBack_yields {counts : Array W} {shares : Array N} (h : IsDepths g source depths)
    (hwell : g.WellFormed) (hu : u < g.numVertices) (hcounts : counts.size = g.numVertices)
    (hshares : shares.size = g.numVertices) (hzero : shares.getD u ops.zero = ops.zero) :
    Yields ((g.targets u).foldlM (passBack ops depths counts u) shares) fun next =>
      next.size = g.numVertices ∧
        next.getD u ops.zero = g.handedBack ops source counts shares u ∧
        ∀ w ≠ u, next.getD w ops.zero = shares.getD w ops.zero := by
  rw [Graph.handedBack, Graph.successors]
  apply Yields.foldlM fun (seen : List Nat) (next : Array N) => next.size = g.numVertices ∧
    next.getD u ops.zero = (seen.filter (g.Descends source u)).foldl (fun share v => dependency ops share
      (ops.wideDiv (counts.getD u ops.wideZero) (counts.getD v ops.wideZero))
      (shares.getD v ops.zero)) ops.zero ∧
    ∀ w ≠ u, next.getD w ops.zero = shares.getD w ops.zero
  · exact ⟨hshares, hzero, fun _ _ => rfl⟩
  · rintro seen v rest next hitems ⟨hsize, hself, hrest⟩
    have hv : v < g.numVertices := hwell.lt_of_hasArc' (u := u) (by simp [Graph.HasArc, hitems])
    have hlt : u < next.size := hsize.symm ▸ hu
    rw [passBack, h.isSuccessor_eq hu hv, ok_bind, List.filter_append, List.foldl_append, ← hself,
      List.filter_singleton]
    by_cases hdescends : g.Descends source u v
    · have hne : v ≠ u := by
        intro heq
        obtain ⟨d, hd, hd'⟩ := hdescends
        have := hd.unique (heq ▸ hd')
        omega
      rw [decide_eq_true hdescends, if_pos rfl, readAt_eq_getD ops.wideZero (hcounts.symm ▸ hu), ok_bind,
        readAt_eq_getD ops.wideZero (hcounts.symm ▸ hv), ok_bind, readAt_eq_getD ops.zero hlt, ok_bind,
        readAt_eq_getD ops.zero (hsize.symm ▸ hv), ok_bind, writeAt_eq_setIfInBounds _ hlt, Yields.ok_iff,
        hrest v hne]
      refine ⟨by rw [Array.size_setIfInBounds, hsize], getD_setIfInBounds_self hlt, fun w hw => ?_⟩
      rw [getD_setIfInBounds_of_ne hw, hrest w hw]
    · rw [decide_eq_false hdescends]
      exact .ok ⟨hsize, rfl, hrest⟩

/-- Settling one more vertex, which no settled one has as a successor and which has no share yet. -/
theorem settleSerially_yields {counts : Array W} {before : Array N} {done : List Nat} {t : Shares N}
    (ht : t.Settles ops g source counts before done) (h : IsDepths g source depths)
    (hwell : g.WellFormed) (hlt : u < g.numVertices) (hcounts : counts.size = g.numVertices)
    (hnew : ∀ w ∈ done, w ≠ u ∧ ¬ g.Descends source w u)
    (hzero : ∀ w, w ∉ done → t.shares.getD w ops.zero = ops.zero) :
    Yields (settleSerially ops g depths counts t u) fun next =>
      next.Settles ops g source counts before (done ++ [u]) ∧
        ∀ w, w ∉ done ++ [u] → next.shares.getD w ops.zero = ops.zero := by
  have hfresh : u ∉ done := fun hu => (hnew u hu).1 rfl
  have hsize : u < t.scores.size := ht.scores_size.symm ▸ hlt
  rw [settleSerially, hwell.outNeighbors_eq hlt, ok_bind]
  apply (passBack_yields h hwell hlt hcounts ht.shares_size (hzero u hfresh)).bind
  intro shares ⟨hshares, hself, hrest⟩
  rw [readAt_eq_getD ops.zero hsize, ok_bind, readAt_eq_getD ops.zero (hshares.symm ▸ hlt), ok_bind]
  change Yields (do
    let scores ← writeAt t.scores u (ops.add (t.scores.getD u ops.zero) (shares.getD u ops.zero))
    pure (⟨shares, scores⟩ : Shares N)) _
  rw [writeAt_eq_setIfInBounds _ hsize, ok_bind, Yields.pure_iff]
  constructor
  · apply ht.concat hnew hshares
    · rw [Array.size_setIfInBounds, ht.scores_size]
    · exact hself
    · exact getD_setIfInBounds_self hsize
    · exact hrest
    · exact fun w hw => getD_setIfInBounds_of_ne hw
  · intro w hw
    rw [List.mem_append, List.mem_singleton, not_or] at hw
    rw [hrest w hw.2, hzero w hw.1]

/-! ### One source after the other -/

/-- Scores with those of one more source added: its paths are counted along its levels, and the levels are
settled from the furthest one up. -/
def AddsSource (ops : ScoreArithmetic N W) (g : Graph) (source : Nat) (before after : Array N) : Prop :=
  ∃ (levels : List (List Nat)) (counts : Array W) (t : Shares N),
    (∀ d, IsLevel g source d (levels.getD d [])) ∧ counts.size = g.numVertices ∧
    Collects ops source (g.descents source (levels.flatten.flatMap g.placedArcs)) counts ∧
    t.Settles ops g source counts before levels.reverse.flatten ∧ t.scores = after

/-- The serial computation adds a source to the scores. -/
theorem addSourceSerially_yields (ops : ScoreArithmetic N W) {scores : Array N} (h : IsDepths g source depths)
    (hwell : g.WellFormed) (hsource : source < g.numVertices) (hscores : scores.size = g.numVertices) :
    Yields (addSourceSerially ops g depths source scores) fun next =>
      next.size = g.numVertices ∧ AddsSource ops g source scores next := by
  have hlevel := h.isLevel
  generalize hlevels : depthLevels depths = levels at hlevel
  have hgraded : Graded g source levels := Graded.ofLevels fun d _ => hlevel d
  have hsize : source < (Array.replicate g.numVertices ops.wideZero).size := by simpa using hsource
  rw [addSourceSerially, hlevels, writeAt_eq_setIfInBounds _ hsize, ok_bind]
  have hstart : Collects ops source []
      ((Array.replicate g.numVertices ops.wideZero).setIfInBounds source ops.wideOne) := by
    intro v hv
    by_cases heq : v = source
    · subst heq
      rw [getD_setIfInBounds_self hsize, if_pos rfl]
      rfl
    · rw [getD_setIfInBounds_of_ne heq, if_neg heq]
      simp [Array.getD, inflow]
  apply (passCounts_yields h hwell hsource hgraded (by simp) hstart).bind
  rintro counts ⟨hcounts, hcollects⟩
  have hsettle : Yields (levels.reverse.flatten.foldlM (settleSerially ops g depths counts)
      ⟨Array.replicate g.numVertices ops.zero, scores⟩) fun t =>
        t.Settles ops g source counts scores levels.reverse.flatten ∧
          ∀ w, w ∉ levels.reverse.flatten → t.shares.getD w ops.zero = ops.zero := by
    apply Yields.foldlM fun (done : List Nat) (t : Shares N) => t.Settles ops g source counts scores done ∧
      ∀ w, w ∉ done → t.shares.getD w ops.zero = ops.zero
    · exact ⟨Shares.settles_nil counts Array.size_replicate hscores, fun w _ => by simp [Array.getD]⟩
    · rintro done u rest t hitems ⟨ht, hzero⟩
      have hmem : u ∈ levels.reverse.flatten := by simp [hitems]
      obtain ⟨d, _, _, hdepth⟩ := hgraded.exists_atDepth (v := u) (by simpa using hmem)
      have hpairwise := hgraded.pairwise_reverse
      rw [hitems, List.pairwise_append] at hpairwise
      exact settleSerially_yields ht h hwell (hdepth.lt_numVertices hwell hsource) hcounts
        (fun w hw => hpairwise.2.2 w hw u List.mem_cons_self) hzero
  apply hsettle.bind
  rintro t ⟨ht, _⟩
  exact .ok ⟨ht.scores_size, levels, counts, t, hlevel, hcounts, hcollects, ht, rfl⟩

/-- The serial computation ends for every list of sources, at the latest when it finds one that is not a
vertex. -/
theorem addSourcesSerially_ends (sources : List Nat) {scores : Array N} (hwell : g.WellFormed)
    (hscores : scores.size = g.numVertices) :
    ∃ answer, addSourcesSerially ops g sources scores = .ok answer := by
  induction sources generalizing scores with
  | nil => exact ⟨_, rfl⟩
  | cons source rest ih =>
    rw [addSourcesSerially]
    by_cases hsource : g.numVertices ≤ source
    · rw [if_pos hsource]
      exact ⟨_, rfl⟩
    · obtain ⟨depths, hdepths, h⟩ := Graph.depthsFrom_yields hwell (Nat.lt_of_not_le hsource)
      obtain ⟨next, hnext, hsize, _⟩ :=
        addSourceSerially_yields ops h hwell (Nat.lt_of_not_le hsource) hscores
      rw [if_neg hsource, hdepths, ok_bind, hnext]
      exact ih hsize

end GraphKernels
