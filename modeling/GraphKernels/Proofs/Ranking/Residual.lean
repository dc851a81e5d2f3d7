import GraphKernels.Proofs.Ranking.Sweep
import GraphKernels.Ranking.Check

/-!
# Converged scores are nearly fixed

The check pushes the final share of every vertex over its out-arcs, where the last sweep had pulled some of
the shares before they were final. What a vertex gets from both differs by what the stale shares have moved
since, so the residual of the check is at most the damped distance by which the last sweep has moved the
scores: over all its arcs a vertex hands on no more than what its own score has moved.
-/

namespace GraphKernels

open Finset

variable {N W : Type} {ops : ScoreArithmetic N W} {g : Graph} {u v : Nat}

/-- Entries with their positions, one after the other. -/
theorem zipIdx_toList_eq {α : Type} (cells : Array α) (fallback : α) :
    cells.toList.zipIdx = (List.range cells.size).map fun i => (cells.getD i fallback, i) := by
  apply List.ext_getElem?
  intro i
  rw [List.getElem?_zipIdx, Array.getElem?_toList, List.getElem?_map, Nat.zero_add]
  by_cases hi : i < cells.size
  · rw [getElem?_eq_getD fallback hi, List.getElem?_range hi]
    rfl
  · rw [Array.getElem?_eq_none (Nat.le_of_not_lt hi), List.getElem?_eq_none (by simpa using hi)]
    rfl

/-! ### The push loop in any arithmetic -/

/-- What some vertices hand on to a vertex, once for each of their arcs to it, given with their scores. -/
def handedTo (ops : ScoreArithmetic N W) (g : Graph) (entries : List (N × Nat)) (v : Nat) : List N :=
  entries.flatMap fun entry => List.replicate ((g.targets entry.2).count v)
    (contribution ops entry.1 (g.targets entry.2).length)

/-- A vertex hands its contribution on, once for each of its arcs. -/
theorem pushContribution_yields {incoming : Array N} (score : N) (hwell : g.WellFormed)
    (hu : u < g.numVertices) (hsize : incoming.size = g.numVertices) :
    Yields (pushContribution ops g incoming (score, u)) fun next => next.size = g.numVertices ∧
      ∀ v < g.numVertices, next.getD v ops.zero =
        (handedTo ops g [(score, u)] v).foldl ops.add (incoming.getD v ops.zero) := by
  simp only [handedTo, List.flatMap_singleton]
  rw [pushContribution, hwell.outDegree_eq hu, ok_bind, hwell.outNeighbors_eq hu]
  generalize contribution ops score (g.targets u).length = passed
  apply Yields.foldlM fun (seen : List Nat) (next : Array N) => next.size = g.numVertices ∧
    ∀ v < g.numVertices, next.getD v ops.zero =
      (List.replicate (seen.count v) passed).foldl ops.add (incoming.getD v ops.zero)
  · exact ⟨hsize, fun _ _ => rfl⟩
  · intro seen w rest next hitems ⟨hnext, hentries⟩
    have hw : w < g.numVertices := hwell.lt_of_hasArc' (u := u) (by simp [Graph.HasArc, hitems])
    have hlt : w < next.size := hnext.symm ▸ hw
    rw [readAt_eq_getD ops.zero hlt, ok_bind, writeAt_eq_setIfInBounds _ hlt, Yields.ok_iff]
    refine ⟨by rw [Array.size_setIfInBounds, hnext], fun v hv => ?_⟩
    rw [List.count_append, List.replicate_add, List.foldl_append, ← hentries v hv]
    by_cases heq : v = w
    · subst heq
      rw [getD_setIfInBounds_self hlt]
      simp
    · rw [getD_setIfInBounds_of_ne heq, List.count_singleton, if_neg (by simpa using Ne.symm heq)]
      rfl

/-- Every vertex gets what the others hand on to it, added up in their order. -/
theorem pushContributions_yields (ops : ScoreArithmetic N W) {scores : Array N} (hwell : g.WellFormed)
    (hsize : scores.size = g.numVertices) :
    Yields (pushContributions ops g scores) fun incoming => incoming.size = g.numVertices ∧
      ∀ v < g.numVertices, incoming.getD v ops.zero = ops.sum (handedTo ops g scores.toList.zipIdx v) := by
  rw [pushContributions]
  apply Yields.foldlM fun (seen : List (N × Nat)) (incoming : Array N) => incoming.size = g.numVertices ∧
    ∀ v < g.numVertices, incoming.getD v ops.zero = ops.sum (handedTo ops g seen v)
  · refine ⟨Array.size_replicate, fun v hv => ?_⟩
    simp [Array.getD, handedTo, ScoreArithmetic.sum, hv]
  · rintro seen ⟨score, u⟩ rest incoming hitems ⟨hincoming, hentries⟩
    have hmem : (score, u) ∈ scores.toList.zipIdx := by simp [hitems]
    have hu : u < g.numVertices := by
      have hplace := List.mem_zipIdx hmem
      rw [Array.length_toList, hsize] at hplace
      omega
    apply (pushContribution_yields score hwell hu hincoming).mono
    rintro next ⟨hnext, hentries'⟩
    refine ⟨hnext, fun v hv => ?_⟩
    rw [hentries' v hv, hentries v hv, ScoreArithmetic.sum, ScoreArithmetic.sum, ← List.foldl_append,
      handedTo, handedTo, handedTo, List.flatMap_append]

/-- Scores are accepted when there are no vertices or the residual is small enough. -/
theorem Graph.judgeRanking_eq {damping : N} {scores : Array N} {target residual : W}
    (hsize : scores.size = g.numVertices)
    (hresidual : g.rankingResidual ops damping scores = .ok residual) :
    g.judgeRanking ops damping scores target =
      .ok (if g.numVertices = 0 ∨ ops.wideLess residual target = true then .accepted
        else .notFixed residual) := by
  rw [judgeRanking, if_neg (not_not.mpr hsize), rankingFlaw?, hresidual]
  by_cases hempty : g.numVertices = 0
  · rw [if_pos hempty, if_pos (Or.inl hempty)]
    rfl
  · rw [if_neg hempty]
    cases hless : ops.wideLess residual target with
    | true =>
      simp only [ok_bind, hless, if_true, or_true]
      rfl
    | false =>
      simp only [ok_bind, hless, hempty, Bool.false_eq_true, if_false, or_self]
      rfl

/-- Judging scores ends for every vector of scores. -/
theorem Graph.judgeRanking_ends (ops : ScoreArithmetic N W) (damping : N) (scores : Array N) (target : W)
    (hwell : g.WellFormed) : ∃ verdict, g.judgeRanking ops damping scores target = .ok verdict := by
  by_cases hsize : scores.size = g.numVertices
  · obtain ⟨incoming, hpush, _⟩ := pushContributions_yields ops hwell hsize
    have hresidual : g.rankingResidual ops damping scores = .ok (ops.wideSum (List.zipWith
        (scoreResidual ops (baseScore ops damping g.numVertices) damping) incoming.toList
        scores.toList)) := by
      rw [rankingResidual, hpush]
      rfl
    exact ⟨_, judgeRanking_eq hsize hresidual⟩
  · rw [judgeRanking, if_pos hsize]
    exact ⟨_, rfl⟩

/-! ### The residual without rounding -/

section

variable {damping : ℚ} {x y : Nat → ℚ} {scores : Array (Option ℚ)}

/-- How far one more step changes some scores, taken together. -/
def Graph.residual (g : Graph) (damping : ℚ) (y : Nat → ℚ) : ℚ :=
  ∑ v ∈ range g.numVertices, |g.base damping + damping * ((g.sources v).map (g.share y)).sum - y v|

/-- In a mirrored graph, what is handed on to a vertex is the sum of the shares of its sources. -/
theorem sum_handedTo (h : Numbers g.numVertices y scores) (hwell : g.WellFormed) (hmirrored : g.Mirrored)
    (hv : v < g.numVertices) : ScoreArithmetic.exact.sum (handedTo .exact g scores.toList.zipIdx v) =
      some ((g.sources v).map (g.share y)).sum := by
  have hentries : scores.toList.zipIdx = (List.range g.numVertices).map fun u => (some (y u), u) := by
    rw [zipIdx_toList_eq scores ScoreArithmetic.exact.zero, h.size_eq]
    exact List.map_congr_left fun u hu => by rw [h.getD_eq u (List.mem_range.mp hu)]
  have hterms : handedTo .exact g scores.toList.zipIdx v = ((List.range g.numVertices).flatMap fun u =>
      List.replicate ((g.targets u).count v) (g.share y u)).map some := by
    rw [handedTo, hentries, List.flatMap_map, List.map_flatMap]
    refine List.flatMap_congr fun u _ => ?_
    rw [g.contribution_exact, List.map_replicate]
  rw [hterms, ScoreArithmetic.sum_exact, hmirrored.sum_sources hwell hv, List.flatMap_def, List.sum_flatten,
    List.map_map, ← List.toFinset_range, List.sum_toFinset _ List.nodup_range]
  congr 2
  refine List.map_congr_left fun u _ => ?_
  simp

/-- The residual of numbers is a number. -/
theorem rankingResidual_eq (damping : ℚ) (h : Numbers g.numVertices y scores) (hwell : g.WellFormed)
    (hmirrored : g.Mirrored) :
    g.rankingResidual .exact (some damping) scores = .ok (some (g.residual damping y)) := by
  obtain ⟨incoming, hpush, hsize, hsums⟩ := pushContributions_yields .exact hwell h.size_eq
  have hincoming : Numbers g.numVertices (fun v => ((g.sources v).map (g.share y)).sum) incoming :=
    ⟨hsize, fun v hv => (hsums v hv).trans (sum_handedTo h hwell hmirrored hv)⟩
  have hterms : List.zipWith (scoreResidual .exact (baseScore .exact (some damping) g.numVertices)
      (some damping)) incoming.toList scores.toList = ((List.range g.numVertices).map fun v =>
        |g.base damping + damping * ((g.sources v).map (g.share y)).sum - y v|).map some := by
    rw [hincoming.toList_eq, h.toList_eq, List.zipWith_map, List.zipWith_self, List.map_map]
    refine List.map_congr_left fun v hv => ?_
    rw [g.baseScore_exact damping (Nat.zero_lt_of_lt (List.mem_range.mp hv))]
    rfl
  rw [Graph.rankingResidual, hpush, ok_bind]
  change Except.ok (ScoreArithmetic.exact.wideSum (List.zipWith _ incoming.toList scores.toList)) = _
  rw [hterms, ScoreArithmetic.wideSum_exact, Graph.residual, ← List.toFinset_range,
    List.sum_toFinset _ List.nodup_range]

/-- Two sums differ by at most what their terms differ by. -/
theorem abs_sum_sub_sum_le (items : List Nat) (f f' : Nat → ℚ) :
    |(items.map f).sum - (items.map f').sum| ≤ (items.map fun u => |f u - f' u|).sum := by
  induction items with
  | nil => simp
  | cons u rest ih =>
    rw [List.map_cons, List.map_cons, List.map_cons, List.sum_cons, List.sum_cons, List.sum_cons,
      add_sub_add_comm]
    exact (abs_add_le _ _).trans (add_le_add_right ih _)

/-- A sweep leaves a residual that is at most the damped distance by which it has moved the scores. -/
theorem Graph.Sweeps.residual_le (h : g.Sweeps damping x y) (hwell : g.WellFormed) (hmirrored : g.Mirrored)
    (hdamping : 0 ≤ damping) : g.residual damping y ≤ damping * g.moved x y := by
  -- What a vertex gets differs only by the shares that were stale when it was updated.
  have hstale (v : Nat) (hv : v < g.numVertices) :
      |g.base damping + damping * ((g.sources v).map (g.share y)).sum - y v| ≤
        damping * ((g.sources v).map fun u => |g.share y u - g.share x u|).sum := by
    have hdiff : g.base damping + damping * ((g.sources v).map (g.share y)).sum - y v =
        damping * (((g.sources v).map (g.share y)).sum -
          ((g.sources v).map fun u => if u < v then g.share y u else g.share x u).sum) := by
      rw [h v hv]
      ring
    rw [hdiff, abs_mul, abs_of_nonneg hdamping]
    apply mul_le_mul_of_nonneg_left _ hdamping
    apply (abs_sum_sub_sum_le _ _ _).trans
    apply List.sum_le_sum
    intro u _
    split
    · rw [sub_self, abs_zero]
      exact abs_nonneg _
    · exact le_refl _
  -- Over all of its arcs a vertex hands on what its score has moved, or nothing if it has none.
  have hhanded (u : Nat) : (g.targets u).length • |g.share y u - g.share x u| ≤ |y u - x u| := by
    rw [Graph.share, Graph.share, ← sub_div, abs_div, Nat.abs_cast, nsmul_eq_mul]
    by_cases hnone : (g.targets u).length = 0
    · rw [hnone, Nat.cast_zero, zero_mul]
      exact abs_nonneg _
    · exact (mul_div_cancel₀ _ (Nat.cast_ne_zero.mpr hnone)).le
  calc g.residual damping y
      ≤ ∑ v ∈ range g.numVertices,
          damping * ((g.sources v).map fun u => |g.share y u - g.share x u|).sum :=
        sum_le_sum fun v hv => hstale v (mem_range.mp hv)
    _ = damping * ∑ u ∈ range g.numVertices, (g.targets u).length • |g.share y u - g.share x u| := by
        rw [← mul_sum, hmirrored.sum_sum_sources hwell]
    _ ≤ damping * g.moved x y :=
        mul_le_mul_of_nonneg_left (sum_le_sum fun u _ => hhanded u) hdamping

end

/-- Without rounding, the residual of the scores that a run on a built graph ends with is at most the damped
distance by which its last sweep has moved them. Scores that a run has stopped at because that distance was
below a bound are accepted up to this bound. -/
theorem rank_residual_le {o : BuildOptions} {edges : List Edge} {damping epsilon : ℚ}
    (hbuild : Graph.build o edges = .ok g) (hdamping : 0 ≤ damping) (hdamping' : damping ≤ 1)
    (maxSweeps : Nat) :
    ∃ r, g.rank .exact (some damping) (some epsilon) maxSweeps = .ok r ∧
      (∀ change, r.changes.back? = some change → ∃ moved residual : ℚ, change = some moved ∧
        g.rankingResidual .exact (some damping) r.scores = .ok (some residual) ∧
        residual ≤ damping * moved) ∧
      (r.converged = true →
        g.judgeRanking .exact (some damping) r.scores (some epsilon) = .ok .accepted) := by
  have hwell := Graph.wellFormed_build hbuild
  have hmirrored := Graph.mirrored_build hbuild
  obtain ⟨first, hstart, hfollows, hrunning⟩ := Ranking.start_yields damping hwell
  obtain ⟨r, hrun, ⟨y, hlast⟩, hconverged⟩ :=
    Ranking.run_yields (some epsilon) maxSweeps hfollows hwell hrunning
  have hresidual := rankingResidual_eq damping hlast.scores hwell hmirrored
  refine ⟨r, by rw [Graph.rank, hstart, ok_bind, hrun], fun change hchange => ?_, fun hdone => ?_⟩
  · obtain ⟨x, hsweeps, rfl⟩ := hlast.last change hchange
    exact ⟨_, _, rfl, hresidual, hsweeps.residual_le hwell hmirrored hdamping⟩
  · obtain ⟨change, hchange, hsmall⟩ := hconverged hdone
    obtain ⟨x, hsweeps, rfl⟩ := hlast.last change hchange
    have hlt : g.moved x y < epsilon := of_decide_eq_true hsmall
    have hle : g.residual damping y ≤ g.moved x y :=
      calc g.residual damping y
          ≤ damping * g.moved x y := hsweeps.residual_le hwell hmirrored hdamping
        _ ≤ 1 * g.moved x y := mul_le_mul_of_nonneg_right hdamping' (sum_nonneg fun _ _ => abs_nonneg _)
        _ = g.moved x y := one_mul _
    rw [g.judgeRanking_eq hlast.scores.size_eq hresidual, if_pos]
    exact Or.inr (decide_eq_true (hle.trans_lt hlt))

/-- Two arcs side by side, a loop, an arc back and a vertex without out-arcs; the sweeps end early. -/
theorem rank_residual_le_dangling :
    ∃ g, Graph.build { numVertices := some 4 }
        [⟨0, 1, 1⟩, ⟨0, 1, 2⟩, ⟨1, 1, 1⟩, ⟨1, 0, 1⟩, ⟨2, 3, 1⟩] = .ok g ∧
      ∃ r, g.rank .exact (some (1 / 2)) (some (1 / 8)) 20 = .ok r ∧ r.converged = true ∧
        (∀ change, r.changes.back? = some change → ∃ moved residual : ℚ, change = some moved ∧
          g.rankingResidual .exact (some (1 / 2)) r.scores = .ok (some residual) ∧
          residual ≤ 1 / 2 * moved) ∧
        g.judgeRanking .exact (some (1 / 2)) r.scores (some (1 / 8)) = .ok .accepted := by
  obtain ⟨g, hbuild, hdone⟩ : ∃ g, Graph.build { numVertices := some 4 }
      [⟨0, 1, 1⟩, ⟨0, 1, 2⟩, ⟨1, 1, 1⟩, ⟨1, 0, 1⟩, ⟨2, 3, 1⟩] = .ok g ∧
      (g.rank .exact (some (1 / 2)) (some (1 / 8)) 20).toOption.map (·.converged) = some true :=
    ⟨_, rfl, by decide +kernel⟩
  obtain ⟨r, hrun, hresidual, haccepted⟩ :=
    rank_residual_le hbuild (show (0 : ℚ) ≤ 1 / 2 by norm_num) (by norm_num) 20
  rw [hrun, Except.toOption, Option.map_some, Option.some.injEq] at hdone
  exact ⟨g, hbuild, r, hrun, hdone, hresidual, haccepted hdone⟩

end GraphKernels
