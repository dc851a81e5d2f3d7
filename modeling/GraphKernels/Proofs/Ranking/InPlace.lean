import GraphKernels.Proofs.Ranking.Moments
import GraphKernels.Proofs.Ranking.Sweep

/-!
# Rankings with one array

A ranking stores a contribution beside every score. At each moment these contributions are the shares of the
scores, so they say nothing that the scores do not say: a sweep overwrites one array of scores in place and
takes shares of whatever the array holds when they are asked for. This is so in any arithmetic, since the
same operations are done in the same order.
-/

namespace GraphKernels

variable {N W : Type} {ops : ScoreArithmetic N W} {g : Graph} {damping : N} {epsilon : W}
  {scores : Array N} {u v k count maxSweeps : Nat}

/-- Values that are listed by number grow at the end of the list. -/
theorem push_map_range {α : Type} (f : Nat → α) (k : Nat) :
    ((List.range k).map f).toArray.push (f k) = ((List.range (k + 1)).map f).toArray := by
  rw [List.push_toArray, List.range_succ, List.map_append, List.map_singleton]

/-! ### Scores in one array -/

namespace Graph

/-- What each out-arc of a vertex gets of the score that an array holds for it. -/
def currentShare (ops : ScoreArithmetic N W) (g : Graph) (scores : Array N) (v : Nat) : N :=
  contribution ops (scores.getD v ops.zero) (g.targets v).length

/-- What each out-arc of every vertex gets. -/
def shares (ops : ScoreArithmetic N W) (g : Graph) (scores : Array N) : Array N :=
  (g.vertices.map (g.currentShare ops scores)).toArray

/-- Overwrite the score of a vertex by the base score and the damped sum of what its in-neighbors give now,
added up from left to right. -/
def overwrite (ops : ScoreArithmetic N W) (g : Graph) (damping : N) (scores : Array N) (u : Nat) : Array N :=
  scores.setIfInBounds u (ops.add (baseScore ops damping g.numVertices)
    (ops.mul damping (ops.sum ((g.sources u).map (g.currentShare ops scores)))))

/-- Overwrite the scores of the vertices before some vertex, one after the other. -/
def overwriteBefore (ops : ScoreArithmetic N W) (g : Graph) (damping : N) (scores : Array N) (u : Nat) :
    Array N := (List.range u).foldl (g.overwrite ops damping) scores

/-- The array after some number of sweeps, with equal scores at first. -/
def scoresAfter (ops : ScoreArithmetic N W) (g : Graph) (damping : N) : (sweeps : Nat) → Array N
  | 0 => Array.replicate g.numVertices (ops.div ops.one (ops.ofNat g.numVertices))
  | sweeps + 1 => g.overwriteBefore ops damping (scoresAfter ops g damping sweeps) g.numVertices

/-- How much the score of a vertex differs between two arrays. -/
def scoreChange (ops : ScoreArithmetic N W) (old new : Array N) (u : Nat) : W :=
  ops.widen (ops.abs (ops.sub (new.getD u ops.zero) (old.getD u ops.zero)))

/-- How much a sweep changes the scores, given by the number of sweeps before it. -/
def sweepChange (ops : ScoreArithmetic N W) (g : Graph) (damping : N) (k : Nat) : W :=
  Sweep.totalChange ops (g.vertices.map
    (scoreChange ops (g.scoresAfter ops damping k) (g.scoresAfter ops damping (k + 1))))

/-- Overwriting a score keeps the size of the array. -/
@[simp] theorem size_overwrite : (g.overwrite ops damping scores u).size = scores.size :=
  Array.size_setIfInBounds

/-- One more score is overwritten after the others. -/
theorem overwriteBefore_succ : g.overwriteBefore ops damping scores (u + 1) =
    g.overwrite ops damping (g.overwriteBefore ops damping scores u) u := by
  rw [overwriteBefore, List.range_succ, List.foldl_append]
  rfl

/-- Overwriting scores keeps the size of the array. -/
@[simp] theorem size_overwriteBefore (u : Nat) :
    (g.overwriteBefore ops damping scores u).size = scores.size := by
  induction u with
  | zero => rfl
  | succ u ih => rw [overwriteBefore_succ, size_overwrite, ih]

/-- There is a score for every vertex after any number of sweeps. -/
@[simp] theorem size_scoresAfter (k : Nat) : (g.scoresAfter ops damping k).size = g.numVertices := by
  induction k with
  | zero => exact Array.size_replicate
  | succ k ih => rw [scoresAfter, size_overwriteBefore, ih]

/-- The scores of later vertices are still to be overwritten. -/
theorem getD_overwriteBefore (hle : u ≤ v) :
    (g.overwriteBefore ops damping scores u).getD v ops.zero = scores.getD v ops.zero := by
  induction u with
  | zero => rfl
  | succ u ih => rw [overwriteBefore_succ, overwrite, getD_setIfInBounds_of_ne (by omega), ih (by omega)]

/-- A share depends on the score of its vertex only. -/
theorem currentShare_congr {others : Array N} (h : scores.getD v ops.zero = others.getD v ops.zero) :
    g.currentShare ops scores v = g.currentShare ops others v := by rw [currentShare, h, currentShare]

/-- The shares are stored by vertex. -/
theorem getD_shares (hv : v < g.numVertices) :
    (g.shares ops scores).getD v ops.zero = g.currentShare ops scores v := by
  simp [shares, vertices, Array.getD, hv]

/-- Overwriting one score makes one share out of date. -/
theorem shares_overwrite (u : Nat) :
    g.shares ops (g.overwrite ops damping scores u) = (g.shares ops scores).setIfInBounds u
      (g.currentShare ops (g.overwrite ops damping scores u) u) := by
  apply eq_of_getElem?_eq (n := g.numVertices) (by simp [shares, vertices]) (by simp [shares, vertices])
  intro v hv
  rw [getElem?_eq_getD ops.zero (by simpa [shares, vertices] using hv),
    getElem?_eq_getD ops.zero (by simpa [shares, vertices] using hv), getD_shares hv]
  by_cases heq : v = u
  · subst heq
    rw [getD_setIfInBounds_self (by simpa [shares, vertices] using hv)]
  · rw [getD_setIfInBounds_of_ne heq, getD_shares hv]
    exact congrArg some (currentShare_congr (getD_setIfInBounds_of_ne heq))

end Graph

/-! ### Contributions that are shares -/

namespace Sweep

/-- Contributions that are shares are pulled as such. -/
theorem pulled_shares (hwell : g.WellFormed) : pulled ops g damping (g.shares ops scores) u =
    ops.add (baseScore ops damping g.numVertices)
      (ops.mul damping (ops.sum ((g.sources u).map (g.currentShare ops scores)))) := by
  rw [pulled, List.map_congr_left fun v hv => Graph.getD_shares (hwell.source_lt hv)]

/-- An update overwrites one score, and the contributions are the shares of the scores again. -/
theorem update_shares (hwell : g.WellFormed) (hu : u < g.numVertices) (hsize : scores.size = g.numVertices)
    (changes : Array W) :
    update ops g damping { scores, contributions := g.shares ops scores, changes } u = .ok {
      scores := g.overwrite ops damping scores u
      contributions := g.shares ops (g.overwrite ops damping scores u)
      changes := changes.push (Graph.scoreChange ops scores (g.overwrite ops damping scores u) u) } := by
  have hnew : (g.overwrite ops damping scores u).getD u ops.zero =
      pulled ops g damping (g.shares ops scores) u := by
    rw [Graph.overwrite, getD_setIfInBounds_self (hsize.symm ▸ hu), pulled_shares hwell]
  rw [update_eq hwell hu hsize (by simp [Graph.shares, Graph.vertices]), Graph.shares_overwrite,
    Graph.scoreChange, Graph.currentShare, hnew, Graph.overwrite, pulled_shares hwell]

/-- Some first updates of a sweep overwrite the scores of the first vertices. -/
theorem foldlM_update_shares (ops : ScoreArithmetic N W) (damping : N) (hwell : g.WellFormed)
    (hsize : scores.size = g.numVertices) (hu : u ≤ g.numVertices) :
    (List.range u).foldlM (update ops g damping) { scores, contributions := g.shares ops scores } =
      (.ok {
        scores := g.overwriteBefore ops damping scores u
        contributions := g.shares ops (g.overwriteBefore ops damping scores u)
        changes := ((List.range u).map
          (Graph.scoreChange ops scores (g.overwriteBefore ops damping scores u))).toArray } :
        Except Fault (Sweep N W)) := by
  induction u with
  | zero => rfl
  | succ u ih =>
    rw [foldlM_range_succ, ih (Nat.le_of_succ_le hu), ok_bind,
      update_shares hwell hu (by simpa using hsize), ← Graph.overwriteBefore_succ]
    -- A score that has been overwritten stays as it is, and one that has not been is the old one.
    have hkept (v : Nat) (hv : v ∈ List.range u) :
        Graph.scoreChange ops scores (g.overwriteBefore ops damping scores u) v =
          Graph.scoreChange ops scores (g.overwriteBefore ops damping scores (u + 1)) v := by
      rw [Graph.scoreChange, Graph.scoreChange, Graph.overwriteBefore_succ, Graph.overwrite,
        getD_setIfInBounds_of_ne (List.mem_range.mp hv).ne]
    have hlast : Graph.scoreChange ops (g.overwriteBefore ops damping scores u)
        (g.overwriteBefore ops damping scores (u + 1)) u =
          Graph.scoreChange ops scores (g.overwriteBefore ops damping scores (u + 1)) u := by
      rw [Graph.scoreChange, Graph.scoreChange, Graph.getD_overwriteBefore (Nat.le_refl u)]
    rw [hlast, List.map_congr_left hkept, push_map_range]

end Sweep

namespace Ranking

/-- The ranking after some number of sweeps over one array, none of which has ended the run. -/
def afterSweeps (ops : ScoreArithmetic N W) (g : Graph) (damping : N) (k : Nat) : Ranking N W where
  scores := g.scoresAfter ops damping k
  contributions := g.shares ops (g.scoresAfter ops damping k)
  changes := ((List.range k).map (g.sweepChange ops damping)).toArray

/-- A run starts before the first sweep. -/
theorem start_eq (hwell : g.WellFormed) (damping : N) :
    start ops g = .ok (afterSweeps ops g damping 0) := by
  have hshares : g.vertices.mapM (fun u => do
      return contribution ops (ops.div ops.one (ops.ofNat g.numVertices)) (← g.outDegree u)) =
      (.ok (g.vertices.map (g.currentShare ops (g.scoresAfter ops damping 0))) : Except Fault _) :=
    mapM_eq_map fun u hu => by
      have hu := List.mem_range.mp hu
      rw [hwell.outDegree_eq hu, ok_bind, Graph.currentShare, Graph.scoresAfter]
      simp [Array.getD, hu, pure, Except.pure]
  rw [start, hshares]
  rfl

/-- A sweep is one over the one array. -/
theorem sweep_afterSweeps (hwell : g.WellFormed) (k : Nat) :
    (afterSweeps ops g damping k).sweep ops g damping =
      .ok (afterSweeps ops g damping (k + 1), g.sweepChange ops damping k) := by
  have hsize : (g.scoresAfter ops damping k).size = g.numVertices := Graph.size_scoresAfter k
  have hsweep := Sweep.foldlM_update_shares ops damping hwell hsize (Nat.le_refl g.numVertices)
  rw [sweep, Graph.vertices, afterSweeps, hsweep, ok_bind, afterSweeps, ← push_map_range]
  rfl

/-- The ranking is what sweeps over one array lead to: the first sweeps up to one whose change is below the
bound, or as many as are allowed where there is none. -/
structure InPlace (ops : ScoreArithmetic N W) (g : Graph) (damping : N) (epsilon : W) (maxSweeps : Nat)
    (r : Ranking N W) : Prop where
  scores_eq : r.scores = g.scoresAfter ops damping r.changes.size
  contributions_eq : r.contributions = g.shares ops r.scores
  changes_eq : r.changes.toList = (List.range r.changes.size).map (g.sweepChange ops damping)
  stops : (∃ k < maxSweeps, r.changes.size = k + 1 ∧ r.converged = true ∧
      ops.wideLess (g.sweepChange ops damping k) epsilon = true ∧
      ∀ i < k, ops.wideLess (g.sweepChange ops damping i) epsilon = false) ∨
    r.changes.size = maxSweeps ∧ r.converged = false ∧
      ∀ i < maxSweeps, ops.wideLess (g.sweepChange ops damping i) epsilon = false

/-- A run goes on in place from where it is. -/
theorem run_yields_inPlace (hwell : g.WellFormed) (sweeps k : Nat)
    (hbefore : ∀ i < k, ops.wideLess (g.sweepChange ops damping i) epsilon = false) :
    Yields (run ops g damping epsilon sweeps (afterSweeps ops g damping k))
      (InPlace ops g damping epsilon (k + sweeps)) := by
  induction sweeps generalizing k with
  | zero =>
    refine .ok ?_
    exact {
      scores_eq := by simp [afterSweeps]
      contributions_eq := rfl
      changes_eq := by simp [afterSweeps]
      stops := Or.inr ⟨by simp [afterSweeps], rfl, hbefore⟩ }
  | succ sweeps ih =>
    rw [run, sweep_afterSweeps hwell, ok_bind]
    dsimp only
    cases hsmall : ops.wideLess (g.sweepChange ops damping k) epsilon with
    | true =>
      rw [if_pos rfl, Yields.pure_iff]
      exact {
        scores_eq := by simp [afterSweeps]
        contributions_eq := rfl
        changes_eq := by simp [afterSweeps]
        stops := Or.inl ⟨k, by omega, by simp [afterSweeps], rfl, hsmall, hbefore⟩ }
    | false =>
      rw [if_neg (by simp), show k + (sweeps + 1) = k + 1 + sweeps by omega]
      apply ih (k + 1)
      intro i hi
      rcases Nat.lt_succ_iff_lt_or_eq.mp hi with hlt | rfl
      · exact hbefore i hlt
      · exact hsmall

/-- A ranking of a well-formed graph is done in place. -/
theorem rank_yields_inPlace (hwell : g.WellFormed) (ops : ScoreArithmetic N W) (damping : N) (epsilon : W)
    (maxSweeps : Nat) :
    Yields (g.rank ops damping epsilon maxSweeps) (InPlace ops g damping epsilon maxSweeps) := by
  rw [Graph.rank, start_eq hwell damping, ok_bind]
  simpa using run_yields_inPlace hwell maxSweeps 0 (by simp)

/-! ### Moments of a run -/

/-- Sweeps that do not end the run are sweeps over the one array. -/
theorem eq_afterSweeps {r : Ranking N W} (hwell : g.WellFormed)
    (h : Relation.ReflTransGen (Precedes ops g damping epsilon) (afterSweeps ops g damping 0) r) :
    ∃ k, r = afterSweeps ops g damping k := by
  induction h with
  | refl => exact ⟨0, rfl⟩
  | tail _ hnext ih =>
    obtain ⟨k, rfl⟩ := ih
    obtain ⟨change, hsweep, _⟩ := hnext
    rw [sweep_afterSweeps hwell] at hsweep
    cases hsweep
    exact ⟨k + 1, rfl⟩

/-- At each moment of a run the scores are those of a sweep over the one array, and the contributions are
their shares. -/
theorem Underway.inPlace {s : Sweep N W} (h : Underway ops g damping epsilon maxSweeps s)
    (hwell : g.WellFormed) : ∃ k < maxSweeps, ∃ u ≤ g.numVertices,
      s.scores = g.overwriteBefore ops damping (g.scoresAfter ops damping k) u ∧
      s.contributions = g.shares ops s.scores := by
  obtain ⟨first, r, count, hstart, hlater, hallowed, hupdates⟩ := h
  rw [start_eq hwell damping] at hstart
  cases hstart
  obtain ⟨k, rfl⟩ := eq_afterSweeps hwell hlater
  rw [Graph.vertices, List.take_range] at hupdates
  have hle : min count g.numVertices ≤ g.numVertices := Nat.min_le_right _ _
  have heq := (Sweep.foldlM_update_shares ops damping hwell (Graph.size_scoresAfter k) hle).symm.trans hupdates
  cases heq
  exact ⟨k, by simpa [afterSweeps] using hallowed, _, hle, rfl, rfl⟩

end Ranking

/-- With valid parameters the answer is that of the ranking. A graph without vertices is not swept. -/
theorem Graph.pageRank_eq {p : RankingParameters} {r : Ranking Float32 Float} (hvalid : p.validate = .ok ())
    (hrun : g.rank .binary p.damping p.epsilon p.maxSweeps = .ok r)
    (hsize : r.scores.size = g.numVertices) : g.pageRank p =
      .ok ⟨r.scores, if g.numVertices = 0 then [] else rankingEvents g.numVertices r⟩ := by
  rw [pageRank, hvalid, hrun]
  change (do
    if g.numVertices = 0 then return ⟨#[], []⟩
    pure ⟨r.scores, rankingEvents g.numVertices r⟩ : Except Failure (Traced (Array Float32))) = _
  by_cases hempty : g.numVertices = 0
  · rw [if_pos hempty, if_pos hempty, Array.eq_empty_of_size_eq_zero (hsize.trans hempty)]
    rfl
  · rw [if_neg hempty, if_neg hempty]
    rfl

/-- In any arithmetic, ranking a built graph gives the scores of sweeps over one array: the first sweeps up to
one whose change is below the bound, or as many as are allowed where there is none. The states under way are those
that a record of the run shows, and at each of them the stored contributions are the shares of the scores, which are
those of a sweep over the one array. With valid parameters these scores are the answer. -/
theorem rank_inPlace {o : BuildOptions} {edges : List Edge} (hbuild : Graph.build o edges = .ok g) :
    (∀ {N W : Type} (ops : ScoreArithmetic N W) (damping : N) (epsilon : W) (maxSweeps : Nat),
      (∃ r, g.rank ops damping epsilon maxSweeps = .ok r ∧
        r.InPlace ops g damping epsilon maxSweeps ∧
        ∃ states, g.recordRank ops damping epsilon maxSweeps = .ok (states, r) ∧
          ∀ s, s ∈ states ↔ Ranking.Underway ops g damping epsilon maxSweeps s) ∧
      ∀ s, Ranking.Underway ops g damping epsilon maxSweeps s → s.contributions = g.shares ops s.scores ∧
        ∃ k < maxSweeps, ∃ u ≤ g.numVertices,
          s.scores = g.overwriteBefore ops damping (g.scoresAfter ops damping k) u) ∧
    ∀ p : RankingParameters, p.validate = .ok () → ∃ r,
      g.rank .binary p.damping p.epsilon p.maxSweeps = .ok r ∧ g.pageRank p =
        .ok ⟨r.scores, if g.numVertices = 0 then [] else rankingEvents g.numVertices r⟩ := by
  have hwell := Graph.wellFormed_build hbuild
  refine ⟨fun ops damping epsilon maxSweeps => ⟨?_, fun s hs => ?_⟩, fun p hvalid => ?_⟩
  · obtain ⟨r, hrun, hr⟩ := Ranking.rank_yields_inPlace hwell ops damping epsilon maxSweeps
    obtain ⟨⟨states, last⟩, hrecord, rfl, hstates⟩ := Graph.recordRank_yields hrun
    exact ⟨last, hrun, hr, states, hrecord, hstates⟩
  · obtain ⟨k, hk, u, hu, hscores, hshares⟩ := hs.inPlace hwell
    exact ⟨hshares, k, hk, u, hu, hscores⟩
  · obtain ⟨r, hrun, hr⟩ :=
      Ranking.rank_yields_inPlace hwell .binary p.damping p.epsilon p.maxSweeps
    refine ⟨r, hrun, Graph.pageRank_eq hvalid hrun ?_⟩
    rw [hr.scores_eq, Graph.size_scoresAfter]

/-- Two arcs side by side, a loop, an arc back and a vertex without out-arcs; two sweeps of at most twenty, the
moment between two updates of the first, and the answer with the default parameters. -/
theorem rank_inPlace_dangling :
    ∃ g, Graph.build { numVertices := some 4 }
        [⟨0, 1, 1⟩, ⟨0, 1, 2⟩, ⟨1, 1, 1⟩, ⟨1, 0, 1⟩, ⟨2, 3, 1⟩] = .ok g ∧
      (∃ r, g.rank .exact (some (1 / 2)) (some (1 / 8)) 20 = .ok r ∧
        r.InPlace .exact g (some (1 / 2)) (some (1 / 8)) 20 ∧ r.changes.size = 2 ∧
        r.scores = #[some (25 / 128), some (75 / 256), some (1 / 8), some (3 / 16)]) ∧
      (∃ s, Ranking.Underway .exact g (some (1 / 2)) (some (1 / 8)) 20 s ∧
        s.scores = #[some (3 / 16), some (1 / 4), some (1 / 4), some (1 / 4)] ∧
        s.contributions = g.shares .exact s.scores) ∧
      ∃ r, g.rank .binary 0.85 1e-4 20 = .ok r ∧
        g.pageRank {} = .ok ⟨r.scores, rankingEvents 4 r⟩ := by
  obtain ⟨g, hbuild, hcount, hvalues, ⟨s, hs, hscores⟩⟩ : ∃ g, Graph.build { numVertices := some 4 }
      [⟨0, 1, 1⟩, ⟨0, 1, 2⟩, ⟨1, 1, 1⟩, ⟨1, 0, 1⟩, ⟨2, 3, 1⟩] = .ok g ∧ g.numVertices = 4 ∧
      (g.rank .exact (some (1 / 2)) (some (1 / 8)) 20).toOption.map (fun r => (r.changes.size, r.scores)) =
        some (2, #[some (25 / 128), some (75 / 256), some (1 / 8), some (3 / 16)]) ∧
      ∃ s, Ranking.Underway .exact g (some (1 / 2)) (some (1 / 8)) 20 s ∧
        s.scores = #[some (3 / 16), some (1 / 4), some (1 / 4), some (1 / 4)] :=
    ⟨_, rfl, rfl, by decide +kernel, _, ⟨_, _, 1, rfl, .refl, by decide, rfl⟩, by decide +kernel⟩
  obtain ⟨hranks, hanswers⟩ := rank_inPlace hbuild
  obtain ⟨⟨r, hrun, hr, -⟩, hmoments⟩ := hranks .exact (some (1 / 2)) (some (1 / 8)) 20
  rw [hrun, Except.toOption, Option.map_some, Option.some.injEq, Prod.mk.injEq] at hvalues
  obtain ⟨r', hrun', hanswer⟩ := hanswers {} rfl
  refine ⟨g, hbuild, ⟨r, hrun, hr, hvalues⟩, ⟨s, hs, hscores, (hmoments s hs).1⟩, r', hrun', ?_⟩
  rw [hanswer, hcount, if_neg (by decide)]

end GraphKernels
