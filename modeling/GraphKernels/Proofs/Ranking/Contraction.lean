import GraphKernels.Proofs.Ranking.InPlace
import GraphKernels.Proofs.Ranking.Residual

/-!
# Sweeps move the scores less and less

What the score of a vertex moves is handed on within the same sweep to the vertices behind it and in the next
sweep to the others. So one sweep need not move the scores by less than the sweep before it has. It does when a
move counts less the more of it is handed on within its sweep: counted in this way, each sweep moves the scores
by at most the damped distance of the sweep before it, and this way of counting differs from the plain one by a
bounded factor. Without rounding the changes therefore fall below any bound, and a run that is allowed enough
sweeps stops.
-/

namespace GraphKernels

open Finset

variable {g : Graph} {damping : ℚ} {x y z : Nat → ℚ} {u v k : Nat}

/-- A sum of terms of two kinds is told by the number of terms of one kind. -/
theorem sum_map_ite (items : List Nat) (p : Nat → Prop) [DecidablePred p] (a b : ℚ) :
    (items.map fun v => if p v then a else b).sum =
      items.countP p * a + (items.length - items.countP p) * b := by
  induction items with
  | nil => simp
  | cons v rest ih =>
    rw [List.map_cons, List.sum_cons, ih, List.countP_cons, List.length_cons]
    by_cases hv : p v
    · simp [hv]
      ring
    · simp [hv]
      ring

namespace Graph

/-- The part of the out-arcs of a vertex that lead to vertices behind it. Where there are none it is zero. -/
def laterPart (g : Graph) (u : Nat) : ℚ := (g.targets u).countP (u < ·) / (g.targets u).length

/-- How far the scores have moved, where a move counts less the more of it is handed on within the sweep. -/
def weightedMove (g : Graph) (damping : ℚ) (x y : Nat → ℚ) : ℚ :=
  ∑ u ∈ range g.numVertices, (1 - damping * g.laterPart u) * |y u - x u|

/-- A part is not negative. -/
theorem laterPart_nonneg (g : Graph) (u : Nat) : 0 ≤ g.laterPart u := by
  rw [laterPart]
  positivity

/-- A part is at most the whole. -/
theorem laterPart_le_one (g : Graph) (u : Nat) : g.laterPart u ≤ 1 :=
  div_le_one_of_le₀ (Nat.cast_le.mpr List.countP_le_length) (Nat.cast_nonneg _)

/-- Moves are not negative. -/
theorem moved_nonneg (g : Graph) (x y : Nat → ℚ) : 0 ≤ g.moved x y := sum_nonneg fun _ _ => abs_nonneg _

/-- Moves count at most in full. -/
theorem weightedMove_le_moved (hdamping : 0 ≤ damping) : g.weightedMove damping x y ≤ g.moved x y := by
  apply sum_le_sum
  intro u _
  apply mul_le_of_le_one_left (abs_nonneg _)
  have := mul_nonneg hdamping (g.laterPart_nonneg u)
  linarith

/-- Of every move at least the part that damping takes away counts. -/
theorem moved_le_weightedMove (hdamping : 0 ≤ damping) :
    (1 - damping) * g.moved x y ≤ g.weightedMove damping x y := by
  rw [moved, mul_sum]
  apply sum_le_sum
  intro u _
  apply mul_le_mul_of_nonneg_right _ (abs_nonneg _)
  have := mul_le_mul_of_nonneg_left (g.laterPart_le_one u) hdamping
  linarith

/-- Over its out-arcs a vertex hands on at most the two parts of what its score moves. -/
theorem sum_targets_share_le (g : Graph) (x y z : Nat → ℚ) (u : Nat) :
    ((g.targets u).map fun v =>
      if u < v then |g.share z u - g.share y u| else |g.share y u - g.share x u|).sum ≤
        g.laterPart u * |z u - y u| + (1 - g.laterPart u) * |y u - x u| := by
  rw [sum_map_ite, laterPart, share, share, share, ← sub_div, ← sub_div, abs_div, abs_div, Nat.abs_cast]
  by_cases hnone : (g.targets u).length = 0
  · rw [List.length_eq_zero_iff.mp hnone]
    simp
  · have hsome : ((g.targets u).length : ℚ) ≠ 0 := Nat.cast_ne_zero.mpr hnone
    apply le_of_eq
    field_simp

/-- A vertex pulls what has moved since it was last replaced: new moves from the vertices before it, and moves
of the sweep before from the others. -/
theorem Sweeps.abs_sub_le (h : g.Sweeps damping x y) (h' : g.Sweeps damping y z) (hdamping : 0 ≤ damping)
    (hv : v < g.numVertices) : |z v - y v| ≤ damping * ((g.sources v).map fun u =>
      if u < v then |g.share z u - g.share y u| else |g.share y u - g.share x u|).sum := by
  have hdiff : z v - y v = damping * (((g.sources v).map fun u =>
      if u < v then g.share z u else g.share y u).sum - ((g.sources v).map fun u =>
        if u < v then g.share y u else g.share x u).sum) := by
    rw [h v hv, h' v hv]
    ring
  rw [hdiff, abs_mul, abs_of_nonneg hdamping]
  apply mul_le_mul_of_nonneg_left _ hdamping
  apply (abs_sum_sub_sum_le _ _ _).trans_eq
  congr 1
  refine List.map_congr_left fun u _ => ?_
  split <;> rfl

/-- The weighted move of a sweep is at most the damped weighted move of the sweep before it. -/
theorem Sweeps.weightedMove_le (h : g.Sweeps damping x y) (h' : g.Sweeps damping y z) (hwell : g.WellFormed)
    (hmirrored : g.Mirrored) (hdamping : 0 ≤ damping) (hdamping' : damping ≤ 1) :
    g.weightedMove damping y z ≤ damping * g.weightedMove damping x y := by
  have hmoved : g.moved y z ≤ damping * ∑ u ∈ range g.numVertices,
      (g.laterPart u * |z u - y u| + (1 - g.laterPart u) * |y u - x u|) :=
    calc g.moved y z
        ≤ ∑ v ∈ range g.numVertices, damping * ((g.sources v).map fun u =>
            if u < v then |g.share z u - g.share y u| else |g.share y u - g.share x u|).sum :=
          sum_le_sum fun v hv => h.abs_sub_le h' hdamping (mem_range.mp hv)
      _ = damping * ∑ u ∈ range g.numVertices, ((g.targets u).map fun v =>
            if u < v then |g.share z u - g.share y u| else |g.share y u - g.share x u|).sum := by
          rw [← mul_sum, hmirrored.sum_comm_sources hwell fun u v =>
            if u < v then |g.share z u - g.share y u| else |g.share y u - g.share x u|]
      _ ≤ _ := mul_le_mul_of_nonneg_left (sum_le_sum fun u _ => g.sum_targets_share_le x y z u) hdamping
  have hsplit : g.weightedMove damping y z =
      g.moved y z - damping * ∑ u ∈ range g.numVertices, g.laterPart u * |z u - y u| := by
    rw [weightedMove, moved, mul_sum, ← sum_sub_distrib]
    exact sum_congr rfl fun u _ => by ring
  -- Damping takes at least as much off the undamped part that is handed on later.
  have hlater : ∑ u ∈ range g.numVertices, (1 - g.laterPart u) * |y u - x u| ≤ g.weightedMove damping x y := by
    apply sum_le_sum
    intro u _
    apply mul_le_mul_of_nonneg_right _ (abs_nonneg _)
    have := mul_le_of_le_one_left (g.laterPart_nonneg u) hdamping'
    linarith
  rw [sum_add_distrib, mul_add] at hmoved
  have := mul_le_mul_of_nonneg_left hlater hdamping
  linarith

/-- A sweep leads from scores to scores, whatever is said of other numbers than vertices. -/
theorem Sweeps.congr {x' y' : Nat → ℚ} (h : g.Sweeps damping x y) (hwell : g.WellFormed)
    (hx : ∀ v < g.numVertices, x v = x' v) (hy : ∀ v < g.numVertices, y v = y' v) :
    g.Sweeps damping x' y' := by
  intro v hv
  rw [← hy v hv, h v hv]
  congr 3
  refine List.map_congr_left fun u hu => ?_
  split
  · exact share_congr (hy u (hwell.source_lt hu))
  · exact share_congr (hx u (hwell.source_lt hu))

/-! ### The scores of a run without rounding -/

/-- The score of a vertex after some number of sweeps, without rounding. -/
def exactScores (g : Graph) (damping : ℚ) (k v : Nat) : ℚ :=
  ((g.scoresAfter .exact (some damping) k).getD v ScoreArithmetic.exact.zero).getD 0

/-- How far a sweep moves the scores, given by the number of sweeps before it. -/
def moves (g : Graph) (damping : ℚ) (k : Nat) : ℚ :=
  g.moved (g.exactScores damping k) (g.exactScores damping (k + 1))

/-- Numbers in the array are the scores. -/
theorem exactScores_eq (h : Numbers g.numVertices x (g.scoresAfter .exact (some damping) k)) (v : Nat)
    (hv : v < g.numVertices) : x v = g.exactScores damping k v := by
  rw [exactScores, h.getD_eq v hv, Option.getD_some]

/-- A sweep leads from numbers to numbers. -/
theorem exists_sweeps (hwell : g.WellFormed)
    (h : Numbers g.numVertices x (g.scoresAfter .exact (some damping) k)) :
    ∃ y, Numbers g.numVertices y (g.scoresAfter .exact (some damping) (k + 1)) ∧ g.Sweeps damping x y ∧
      g.sweepChange .exact (some damping) k = some (g.moved x y) := by
  have hshares : Numbers g.numVertices (g.share x)
      (g.shares .exact (g.scoresAfter .exact (some damping) k)) :=
    ⟨by simp [shares, vertices], fun v hv => by
      rw [getD_shares hv, currentShare, h.getD_eq v hv, contribution_exact]⟩
  have hsize : (g.scoresAfter .exact (some damping) k).size = g.numVertices := size_scoresAfter k
  have hsweep := Sweep.foldlM_update_shares .exact (some damping) hwell hsize (Nat.le_refl g.numVertices)
  obtain ⟨y, hy⟩ := (Sweep.foldlM_update_yields hwell h hshares).of_eq hsweep
  exact ⟨y, hy.scores, hy.pulled, hy.totalChange_eq⟩

/-- After any number of sweeps the scores are numbers. -/
theorem numbers_scoresAfter (hwell : g.WellFormed) (damping : ℚ) (k : Nat) :
    Numbers g.numVertices (g.exactScores damping k) (g.scoresAfter .exact (some damping) k) := by
  obtain ⟨x, hx⟩ : ∃ x, Numbers g.numVertices x (g.scoresAfter .exact (some damping) k) := by
    induction k with
    | zero =>
      have hstart := (Ranking.start_yields damping hwell).of_eq (Ranking.start_eq hwell (some damping))
      exact ⟨_, hstart.1.scores⟩
    | succ k ih =>
      obtain ⟨x, hx⟩ := ih
      obtain ⟨y, hy, _⟩ := exists_sweeps hwell hx
      exact ⟨y, hy⟩
  exact ⟨hx.size_eq, fun v hv => by rw [← exactScores_eq hx v hv, hx.getD_eq v hv]⟩

/-- Each sweep leads from the scores before it to those after it, and its change is how far they move. -/
theorem sweeps_exactScores (hwell : g.WellFormed) (damping : ℚ) (k : Nat) :
    g.Sweeps damping (g.exactScores damping k) (g.exactScores damping (k + 1)) ∧
      g.sweepChange .exact (some damping) k = some (g.moves damping k) := by
  obtain ⟨y, hy, hsweeps, hchange⟩ := exists_sweeps hwell (numbers_scoresAfter hwell damping k)
  have hsame := exactScores_eq hy
  refine ⟨hsweeps.congr hwell (fun _ _ => rfl) hsame, ?_⟩
  rw [hchange, moves, moved, moved]
  exact congrArg some (sum_congr rfl fun v hv => by rw [hsame v (mem_range.mp hv)])

/-- The weighted moves of a run fall at least as fast as the powers of the damping factor. -/
theorem weightedMove_exactScores_le (hwell : g.WellFormed) (hmirrored : g.Mirrored) (hdamping : 0 ≤ damping)
    (hdamping' : damping ≤ 1) (k : Nat) :
    g.weightedMove damping (g.exactScores damping k) (g.exactScores damping (k + 1)) ≤
      damping ^ k * g.weightedMove damping (g.exactScores damping 0) (g.exactScores damping 1) := by
  induction k with
  | zero => rw [pow_zero, one_mul]
  | succ k ih =>
    have hnext := (sweeps_exactScores hwell damping k).1.weightedMove_le
      (sweeps_exactScores hwell damping (k + 1)).1 hwell hmirrored hdamping hdamping'
    calc g.weightedMove damping (g.exactScores damping (k + 1)) (g.exactScores damping (k + 1 + 1))
        ≤ damping * g.weightedMove damping (g.exactScores damping k) (g.exactScores damping (k + 1)) := hnext
      _ ≤ damping * (damping ^ k *
            g.weightedMove damping (g.exactScores damping 0) (g.exactScores damping 1)) :=
          mul_le_mul_of_nonneg_left ih hdamping
      _ = _ := by ring

/-- The moves of a run are bounded by the powers of the damping factor. -/
theorem moves_le (hwell : g.WellFormed) (hmirrored : g.Mirrored) (hdamping : 0 ≤ damping)
    (hdamping' : damping < 1) (k : Nat) :
    g.moves damping k ≤ damping ^ k / (1 - damping) * g.moves damping 0 := by
  have hpos : 0 < 1 - damping := sub_pos.mpr hdamping'
  rw [div_mul_eq_mul_div, le_div_iff₀ hpos, mul_comm]
  calc (1 - damping) * g.moves damping k
      ≤ g.weightedMove damping (g.exactScores damping k) (g.exactScores damping (k + 1)) :=
        moved_le_weightedMove hdamping
    _ ≤ damping ^ k * g.weightedMove damping (g.exactScores damping 0) (g.exactScores damping 1) :=
        weightedMove_exactScores_le hwell hmirrored hdamping hdamping'.le k
    _ ≤ damping ^ k * g.moves damping 0 :=
        mul_le_mul_of_nonneg_left (weightedMove_le_moved hdamping) (pow_nonneg hdamping k)

/-- The moves of a run fall below any bound. -/
theorem exists_moves_lt (hwell : g.WellFormed) (hmirrored : g.Mirrored) (hdamping : 0 ≤ damping)
    (hdamping' : damping < 1) {epsilon : ℚ} (hepsilon : 0 < epsilon) : ∃ k, g.moves damping k < epsilon := by
  have hpos : 0 < 1 - damping := sub_pos.mpr hdamping'
  have hfirst : 0 ≤ g.moves damping 0 := g.moved_nonneg _ _
  have hbound : 0 < epsilon * (1 - damping) / (g.moves damping 0 + 1) := by positivity
  obtain ⟨k, hk⟩ := exists_pow_lt_of_lt_one hbound hdamping'
  refine ⟨k, (moves_le hwell hmirrored hdamping hdamping' k).trans_lt ?_⟩
  rw [lt_div_iff₀ (by linarith)] at hk
  rw [div_mul_eq_mul_div, div_lt_iff₀ hpos]
  calc damping ^ k * g.moves damping 0
      ≤ damping ^ k * (g.moves damping 0 + 1) :=
        mul_le_mul_of_nonneg_left (by linarith) (pow_nonneg hdamping k)
    _ < epsilon * (1 - damping) := hk

end Graph

/-- Whether the change of a sweep lies below a bound is whether its moves do. -/
theorem Ranking.wideLess_sweepChange (hwell : g.WellFormed) (damping epsilon : ℚ) (k : Nat) :
    ScoreArithmetic.exact.wideLess (g.sweepChange .exact (some damping) k) (some epsilon) =
      decide (g.moves damping k < epsilon) := by
  rw [(Graph.sweeps_exactScores hwell damping k).2]
  rfl

/-- Without rounding and with a damping factor below one, each sweep of a ranking of a built graph moves the
scores, taken together, by at most a power of the damping factor times what the first sweep moves them, divided
by one minus the damping factor. So for every positive bound there is a number of sweeps from which on a run
stops by itself. Where the bound is not positive, all sweeps are done that are allowed. -/
theorem rank_changes_contract {o : BuildOptions} {edges : List Edge} (hbuild : Graph.build o edges = .ok g)
    (hdamping : 0 ≤ damping) (hdamping' : damping < 1) :
    ∃ x : Nat → Nat → ℚ,
      (∀ epsilon maxSweeps, ∃ r, g.rank .exact (some damping) (some epsilon) maxSweeps = .ok r ∧
        Numbers g.numVertices (x r.changes.size) r.scores ∧
        r.changes.toList = (List.range r.changes.size).map (fun k =>
          some (∑ v ∈ range g.numVertices, |x (k + 1) v - x k v|)) ∧
        (epsilon ≤ 0 → r.changes.size = maxSweeps)) ∧
      (∀ k, ∑ v ∈ range g.numVertices, |x (k + 1) v - x k v| ≤
        damping ^ k / (1 - damping) * ∑ v ∈ range g.numVertices, |x 1 v - x 0 v|) ∧
      ∀ epsilon > 0, ∃ enough, ∀ maxSweeps ≥ enough, ∃ r,
        g.rank .exact (some damping) (some epsilon) maxSweeps = .ok r ∧ r.converged = true := by
  have hwell := Graph.wellFormed_build hbuild
  have hmirrored := Graph.mirrored_build hbuild
  refine ⟨g.exactScores damping, fun epsilon maxSweeps => ?_,
    Graph.moves_le hwell hmirrored hdamping hdamping', fun epsilon hepsilon => ?_⟩
  · obtain ⟨r, hrun, hr⟩ := Ranking.rank_yields_inPlace hwell .exact (some damping) (some epsilon) maxSweeps
    refine ⟨r, hrun, ?_, ?_, fun hnone => ?_⟩
    · rw [hr.scores_eq]
      exact Graph.numbers_scoresAfter hwell damping r.changes.size
    · rw [hr.changes_eq]
      exact List.map_congr_left fun k _ => (Graph.sweeps_exactScores hwell damping k).2
    · rcases hr.stops with ⟨k, _, _, _, hsmall, _⟩ | ⟨hsize, _⟩
      · rw [Ranking.wideLess_sweepChange hwell, decide_eq_true_eq] at hsmall
        exact absurd (g.moved_nonneg _ _) (not_le.mpr (hsmall.trans_le hnone))
      · exact hsize
  · obtain ⟨k, hk⟩ := Graph.exists_moves_lt hwell hmirrored hdamping hdamping' hepsilon
    refine ⟨k + 1, fun maxSweeps henough => ?_⟩
    obtain ⟨r, hrun, hr⟩ := Ranking.rank_yields_inPlace hwell .exact (some damping) (some epsilon) maxSweeps
    refine ⟨r, hrun, ?_⟩
    rcases hr.stops with ⟨_, _, _, hconverged, _⟩ | ⟨_, _, hlarge⟩
    · exact hconverged
    · have hnot := hlarge k henough
      rw [Ranking.wideLess_sweepChange hwell, decide_eq_false_iff_not] at hnot
      exact absurd hk hnot

/-- Two arcs side by side, a chain that ends in a vertex without out-arcs, and a loop: the second sweep moves the
scores by more than the damped move of the first. -/
theorem rank_changes_contract_chain :
    ∃ g, Graph.build { numVertices := some 5 }
        [⟨2, 0, 1⟩, ⟨2, 0, 2⟩, ⟨0, 1, 1⟩, ⟨1, 3, 1⟩, ⟨4, 4, 1⟩] = .ok g ∧
      ∃ x : Nat → Nat → ℚ, ∑ v ∈ range 5, |x 1 v - x 0 v| = 1 / 10 ∧
        ∑ v ∈ range 5, |x 2 v - x 1 v| = 7 / 80 ∧
        (∀ k, ∑ v ∈ range 5, |x (k + 1) v - x k v| ≤ (1 / 2) ^ k / (1 - 1 / 2) * (1 / 10)) ∧
        ∀ epsilon > 0, ∃ enough, ∀ maxSweeps ≥ enough, ∃ r,
          g.rank .exact (some (1 / 2)) (some epsilon) maxSweeps = .ok r ∧ r.converged = true := by
  obtain ⟨g, hbuild, hcount, hvalues⟩ : ∃ g, Graph.build { numVertices := some 5 }
      [⟨2, 0, 1⟩, ⟨2, 0, 2⟩, ⟨0, 1, 1⟩, ⟨1, 3, 1⟩, ⟨4, 4, 1⟩] = .ok g ∧ g.numVertices = 5 ∧
      (g.rank .exact (some (1 / 2)) (some 0) 2).toOption.map (·.changes.toList) =
        some [some (1 / 10), some (7 / 80)] := ⟨_, rfl, rfl, by decide +kernel⟩
  obtain ⟨x, hruns, hbound, hstops⟩ :=
    rank_changes_contract hbuild (show (0 : ℚ) ≤ 1 / 2 by norm_num) (by norm_num)
  obtain ⟨r, hrun, _, hchanges, hsize⟩ := hruns 0 2
  rw [hrun, Except.toOption, Option.map_some, Option.some.injEq, hchanges, hsize (le_refl 0), hcount]
    at hvalues
  obtain ⟨hfirst, hsecond⟩ : ∑ v ∈ range 5, |x 1 v - x 0 v| = 1 / 10 ∧
      ∑ v ∈ range 5, |x 2 v - x 1 v| = 7 / 80 := by
    simpa [List.range_succ] using hvalues
  rw [hcount, hfirst] at hbound
  exact ⟨g, hbuild, x, hfirst, hsecond, hbound, hstops⟩

end GraphKernels
