import GraphKernels.Proofs.Arithmetic
import GraphKernels.Proofs.Graph.Route
import GraphKernels.Ranking.PageRank

/-!
# One sweep after the other

A sweep replaces the scores of the vertices one after the other and puts every new contribution in place at
once. When the score of a vertex is replaced, the vertices before it contribute shares of their new scores,
and it and the vertices behind it shares of their old ones. Without rounding this describes a sweep by an
equation for every vertex, and a whole run by what its last sweep has done.
-/

namespace GraphKernels

open Finset

variable {N W : Type} {ops : ScoreArithmetic N W} {g : Graph} {u v : Nat}

/-! ### Updates in any arithmetic -/

namespace Sweep

variable {s : Sweep N W} {damping : N}

/-- The score that a vertex gets from the contributions of its in-neighbors. -/
def pulled (ops : ScoreArithmetic N W) (g : Graph) (damping : N) (contributions : Array N) (u : Nat) : N :=
  ops.add (baseScore ops damping g.numVertices)
    (ops.mul damping (ops.sum ((g.sources u).map (contributions.getD · ops.zero))))

/-- An update replaces one score and the contribution that goes with it. -/
theorem update_eq (hwell : g.WellFormed) (hu : u < g.numVertices) (hscores : s.scores.size = g.numVertices)
    (hcontributions : s.contributions.size = g.numVertices) : s.update ops g damping u = .ok {
      scores := s.scores.setIfInBounds u (pulled ops g damping s.contributions u)
      contributions := s.contributions.setIfInBounds u
        (contribution ops (pulled ops g damping s.contributions u) (g.targets u).length)
      changes := s.changes.push (ops.widen
        (ops.abs (ops.sub (pulled ops g damping s.contributions u) (s.scores.getD u ops.zero)))) } := by
  have hterms : (g.sources u).mapM (readAt s.contributions) =
      .ok ((g.sources u).map (s.contributions.getD · ops.zero)) :=
    mapM_eq_map fun v hv => readAt_eq_getD ops.zero (hcontributions.symm ▸ hwell.source_lt hv)
  have hsize : u < s.scores.size := hscores.symm ▸ hu
  have hsize' : u < s.contributions.size := hcontributions.symm ▸ hu
  rw [update, hwell.inNeighbors_eq hu, ok_bind, hterms, ok_bind, readAt_eq_getD ops.zero hsize, ok_bind]
  change (do
    let scores ← writeAt s.scores u (pulled ops g damping s.contributions u)
    let degree ← g.outDegree u
    let contributions ← writeAt s.contributions u
      (contribution ops (pulled ops g damping s.contributions u) degree)
    pure ({ scores, contributions, changes := _ } : Sweep N W)) = _
  rw [writeAt_eq_setIfInBounds _ hsize, ok_bind, hwell.outDegree_eq hu, ok_bind,
    writeAt_eq_setIfInBounds _ hsize', ok_bind]
  rfl

end Sweep

/-! ### Scores without rounding -/

/-- The entries are numbers, those that a function gives. -/
structure Numbers (n : Nat) (x : Nat → ℚ) (values : Array (Option ℚ)) : Prop where
  size_eq : values.size = n
  getD_eq : ∀ v < n, values.getD v ScoreArithmetic.exact.zero = some (x v)

namespace Numbers

variable {n : Nat} {x y : Nat → ℚ} {values : Array (Option ℚ)}

/-- One entry can be replaced, as long as the others stay. -/
theorem set (h : Numbers n x values) (hself : v < n) (hother : ∀ u < n, u ≠ v → y u = x u) :
    Numbers n y (values.setIfInBounds v (some (y v))) where
  size_eq := by rw [Array.size_setIfInBounds, h.size_eq]
  getD_eq u hu := by
    by_cases heq : u = v
    · subst heq
      exact getD_setIfInBounds_self (h.size_eq.symm ▸ hself)
    · rw [getD_setIfInBounds_of_ne heq, h.getD_eq u hu, hother u hu heq]

/-- The entries one after the other. -/
theorem toList_eq (h : Numbers n x values) : values.toList = (List.range n).map fun v => some (x v) := by
  apply List.ext_getElem?
  intro v
  rw [Array.getElem?_toList, List.getElem?_map]
  by_cases hv : v < n
  · rw [getElem?_eq_getD ScoreArithmetic.exact.zero (h.size_eq.symm ▸ hv), h.getD_eq v hv,
      List.getElem?_range hv]
    rfl
  · rw [Array.getElem?_eq_none (by have := h.size_eq; omega), List.getElem?_eq_none (by simpa using hv)]
    rfl

end Numbers

namespace Graph

variable {x y : Nat → ℚ}

/-- What each out-arc of a vertex gets of its score. Where there are none the quotient is zero. -/
def share (g : Graph) (x : Nat → ℚ) (u : Nat) : ℚ := x u / (g.targets u).length

/-- The part of each score that does not come over arcs. -/
def base (g : Graph) (damping : ℚ) : ℚ := (1 - damping) / g.numVertices

/-- A sweep leads from some scores to others: every vertex has pulled new shares from the vertices before
it and old ones from the rest. -/
def Sweeps (g : Graph) (damping : ℚ) (x y : Nat → ℚ) : Prop :=
  ∀ v < g.numVertices, y v = g.base damping +
    damping * ((g.sources v).map fun u => if u < v then g.share y u else g.share x u).sum

/-- How far the scores have moved, taken together. -/
def moved (g : Graph) (x y : Nat → ℚ) : ℚ := ∑ v ∈ range g.numVertices, |y v - x v|

/-- The share of a vertex depends on its own score only. -/
theorem share_congr (h : y u = x u) : g.share y u = g.share x u := by rw [share, share, h]

/-- Contributions are shares. -/
theorem contribution_exact (x : Nat → ℚ) (u : Nat) :
    contribution .exact (some (x u)) (g.targets u).length = some (g.share x u) := by
  rw [contribution, share]
  split
  · next hnone => rw [hnone, Nat.cast_zero, div_zero, ScoreArithmetic.exact_zero]
  · next hsome => exact ScoreArithmetic.exact_div (Nat.cast_ne_zero.mpr hsome)

/-- The base score is a number where there are vertices. -/
theorem baseScore_exact (damping : ℚ) (hn : 0 < g.numVertices) :
    baseScore .exact (some damping) g.numVertices = some (g.base damping) := by
  rw [baseScore, ScoreArithmetic.exact_one, ScoreArithmetic.exact_sub]
  exact ScoreArithmetic.exact_div (Nat.cast_ne_zero.mpr hn.ne')

end Graph

/-! ### One sweep -/

namespace Sweep

variable {s : Sweep (Option ℚ) (Option ℚ)} {damping : ℚ} {x y : Nat → ℚ} {k : Nat}

/-- A vertex pulls the base score and the damped sum of the shares of its in-neighbors. -/
theorem pulled_exact {contributions : Array (Option ℚ)} (damping : ℚ)
    (h : Numbers g.numVertices (g.share y) contributions) (hwell : g.WellFormed) (hu : u < g.numVertices) :
    pulled .exact g (some damping) contributions u =
      some (g.base damping + damping * ((g.sources u).map (g.share y)).sum) := by
  have hterms : (g.sources u).map (contributions.getD · ScoreArithmetic.exact.zero) =
      ((g.sources u).map (g.share y)).map some := by
    rw [List.map_map]
    exact List.map_congr_left fun v hv => h.getD_eq v (hwell.source_lt hv)
  rw [pulled, g.baseScore_exact damping (Nat.zero_lt_of_lt hu), hterms, ScoreArithmetic.sum_exact]
  rfl

/-- A sweep has replaced the scores of the first vertices. -/
structure Reaches (g : Graph) (damping : ℚ) (x y : Nat → ℚ) (k : Nat)
    (s : Sweep (Option ℚ) (Option ℚ)) : Prop where
  scores : Numbers g.numVertices y s.scores
  contributions : Numbers g.numVertices (g.share y) s.contributions
  kept : ∀ v, k ≤ v → y v = x v
  pulled : ∀ v < k, y v = g.base damping +
    damping * ((g.sources v).map fun u => if u < v then g.share y u else g.share x u).sum
  changes : s.changes.toList = (List.range k).map fun v => some |y v - x v|

/-- The next update replaces the score of one more vertex. -/
theorem update_yields (h : s.Reaches g damping x y k) (hwell : g.WellFormed) (hk : k < g.numVertices) :
    Yields (s.update .exact g (some damping) k) fun next =>
      ∃ z, next.Reaches g damping x z (k + 1) := by
  -- All shares that the vertex pulls from itself and from behind are still those of the old scores.
  have hshares : (g.sources k).map (g.share y) =
      (g.sources k).map fun u => if u < k then g.share y u else g.share x u := by
    refine List.map_congr_left fun u _ => ?_
    split
    · rfl
    · next hlate => exact Graph.share_congr (h.kept u (Nat.le_of_not_lt hlate))
  generalize hnew : g.base damping + damping * ((g.sources k).map (g.share y)).sum = new
  have hpulled : pulled .exact g (some damping) s.contributions k = some new := by
    rw [pulled_exact damping h.contributions hwell hk, hnew]
  have hself : Function.update y k new k = new := Function.update_self k new y
  have hother (u : Nat) (hu : u ≠ k) : Function.update y k new u = y u := Function.update_of_ne hu new y
  rw [update_eq hwell hk h.scores.size_eq h.contributions.size_eq, hpulled, ← hself,
    g.contribution_exact, h.scores.getD_eq k hk, h.kept k (Nat.le_refl k)]
  refine .ok ⟨Function.update y k new, ?_⟩
  exact {
    scores := h.scores.set hk fun u _ hu => hother u hu
    contributions := h.contributions.set hk fun u _ hu => Graph.share_congr (hother u hu)
    kept := fun v hv => by rw [hother v (by omega), h.kept v (by omega)]
    pulled := fun v hv => by
      have hbefore : (g.sources v).map (fun u => if u < v then g.share (Function.update y k new) u
          else g.share x u) = (g.sources v).map fun u => if u < v then g.share y u else g.share x u := by
        refine List.map_congr_left fun u _ => ?_
        split
        · exact Graph.share_congr (hother u (by omega))
        · rfl
      rw [hbefore]
      by_cases hv' : v = k
      · subst hv'
        rw [hself, ← hnew, hshares]
      · rw [hother v hv', h.pulled v (by omega)]
    changes := by
      rw [Array.toList_push, h.changes, List.range_succ, List.map_append, List.map_singleton]
      congr 1
      exact List.map_congr_left fun v hv => by rw [hother v (List.mem_range.mp hv).ne] }

/-- A prefix of the vertices has as many of them as the vertex behind it says. -/
theorem length_eq_of_vertices {seen rest : List Nat} (h : g.vertices = seen ++ u :: rest) :
    seen.length = u ∧ u < g.numVertices := by
  have hentry : g.vertices[seen.length]? = some u := by simp [h]
  rw [Graph.vertices, List.getElem?_eq_some_iff] at hentry
  obtain ⟨hlt, heq⟩ := hentry
  rw [List.getElem_range] at heq
  exact ⟨heq, heq ▸ by simpa using hlt⟩

/-- After a sweep the scores are those that it leads to. -/
theorem foldlM_update_yields (hwell : g.WellFormed) {scores contributions : Array (Option ℚ)}
    (hscores : Numbers g.numVertices x scores)
    (hcontributions : Numbers g.numVertices (g.share x) contributions) :
    Yields (g.vertices.foldlM (update .exact g (some damping)) { scores, contributions }) fun s =>
      ∃ y, s.Reaches g damping x y g.numVertices := by
  have hloop : Yields (g.vertices.foldlM (update .exact g (some damping)) { scores, contributions })
      fun s => ∃ y, s.Reaches g damping x y g.vertices.length := by
    apply Yields.foldlM fun (seen : List Nat) (s : Sweep (Option ℚ) (Option ℚ)) =>
      ∃ y, s.Reaches g damping x y seen.length
    · exact ⟨x, hscores, hcontributions, fun _ _ => rfl, fun v hv => absurd hv (Nat.not_lt_zero v), rfl⟩
    · intro seen u rest s hitems ⟨y, hs⟩
      obtain ⟨rfl, hu⟩ := length_eq_of_vertices hitems
      rw [List.length_append, List.length_singleton]
      exact update_yields hs hwell hu
  rwa [Graph.vertices, List.length_range, ← Graph.vertices] at hloop

/-- Without rounding the total change is how far the scores have moved. -/
theorem Reaches.totalChange_eq (h : s.Reaches g damping x y g.numVertices) :
    totalChange .exact s.changes.toList = some (g.moved x y) := by
  have hchanges : s.changes.toList = ((List.range g.numVertices).map fun v => |y v - x v|).map some := by
    rw [h.changes, List.map_map]
    rfl
  rw [totalChange_eq_wideSum _ ScoreArithmetic.exact_wideAdd_assoc ScoreArithmetic.exact_wideAdd_zero,
    hchanges, ScoreArithmetic.wideSum_exact, Graph.moved, ← List.toFinset_range,
    List.sum_toFinset _ List.nodup_range]

end Sweep

/-! ### Runs -/

namespace Ranking

variable {r : Ranking (Option ℚ) (Option ℚ)} {damping : ℚ} {x y : Nat → ℚ}

/-- The scores are numbers, whose shares are the contributions, and the last sweep, if there was one, has
led to them. -/
structure Follows (g : Graph) (damping : ℚ) (y : Nat → ℚ) (r : Ranking (Option ℚ) (Option ℚ)) : Prop where
  scores : Numbers g.numVertices y r.scores
  contributions : Numbers g.numVertices (g.share y) r.contributions
  last : ∀ change, r.changes.back? = some change →
    ∃ x, g.Sweeps damping x y ∧ change = some (g.moved x y)

/-- A run starts with equal scores. -/
theorem start_yields (damping : ℚ) (hwell : g.WellFormed) : Yields (start .exact g) fun r =>
    r.Follows g damping (fun _ => 1 / g.numVertices) ∧ r.converged = false := by
  rw [start]
  generalize hscore : ScoreArithmetic.exact.div ScoreArithmetic.exact.one
    (ScoreArithmetic.exact.ofNat g.numVertices) = score
  have hnumber (v : Nat) (hv : v < g.numVertices) : score = some (1 / (g.numVertices : ℚ)) := by
    rw [← hscore, ScoreArithmetic.exact_one]
    exact ScoreArithmetic.exact_div (Nat.cast_ne_zero.mpr (Nat.ne_zero_of_lt hv))
  have hshares : g.vertices.mapM (fun u => do return contribution .exact score (← g.outDegree u)) =
      (.ok (g.vertices.map fun u => contribution .exact score (g.targets u).length) : Except Fault _) :=
    mapM_eq_map fun u hu => by
      rw [hwell.outDegree_eq (List.mem_range.mp hu), ok_bind]
      rfl
  rw [hshares]
  refine .ok ⟨?_, rfl⟩
  exact {
    scores := ⟨Array.size_replicate, fun v hv => by simp [Array.getD, hv, hnumber v hv]⟩
    contributions := by
      refine ⟨by simp [Graph.vertices], fun v hv => ?_⟩
      rw [← g.contribution_exact, ← hnumber v hv]
      simp [Graph.vertices, Array.getD, hv]
    last := fun change hchange => by simp at hchange }

/-- A sweep leads from scores to scores and says how far they have moved. -/
theorem sweep_yields (h : r.Follows g damping x) (hwell : g.WellFormed) :
    Yields (r.sweep .exact g (some damping)) fun (next, change) =>
      (∃ y, next.Follows g damping y) ∧ next.changes.back? = some change ∧
        next.converged = r.converged := by
  rw [sweep]
  apply (Sweep.foldlM_update_yields hwell h.scores h.contributions).bind
  intro s ⟨y, hs⟩
  refine .ok ⟨⟨y, ?_⟩, Array.back?_push .., rfl⟩
  exact {
    scores := hs.scores
    contributions := hs.contributions
    last := fun change hchange => by
      rw [Array.back?_push, Option.some.injEq] at hchange
      exact ⟨x, hs.pulled, hchange.symm.trans hs.totalChange_eq⟩ }

/-- A run ends with scores that its last sweep has led to, and it stops early only when that sweep has moved
them by little enough. -/
theorem run_yields (epsilon : Option ℚ) (sweeps : Nat) (h : r.Follows g damping x) (hwell : g.WellFormed)
    (hrunning : r.converged = false) :
    Yields (run .exact g (some damping) epsilon sweeps r) fun last => (∃ y, last.Follows g damping y) ∧
      (last.converged = true → ∃ change, last.changes.back? = some change ∧
        ScoreArithmetic.exact.wideLess change epsilon = true) := by
  induction sweeps generalizing r x with
  | zero => exact .ok ⟨⟨x, h⟩, fun hdone => by simp [hrunning] at hdone⟩
  | succ sweeps ih =>
    rw [run]
    apply (sweep_yields h hwell).bind
    intro (next, change) ⟨⟨y, hnext⟩, hchange, hconverged⟩
    by_cases hsmall : ScoreArithmetic.exact.wideLess change epsilon = true
    · simp only [hsmall, if_true]
      exact .ok ⟨⟨y, hnext.scores, hnext.contributions, hnext.last⟩, fun _ => ⟨change, hchange, hsmall⟩⟩
    · simp only [hsmall]
      exact ih hnext (hconverged.trans hrunning)

end Ranking

end GraphKernels
