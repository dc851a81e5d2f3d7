import GraphKernels.Proofs.Graph.Level
import GraphKernels.Proofs.Graph.Route

/-!
# Shares in shortest routes

The share of a vertex over a source adds up, for every other vertex that can be reached, the part of its
shortest routes that visit the vertex. It need not be computed route by route: an arc that leads one level
down hands back the share of its target and one for the target itself, in the proportion of the numbers
of shortest routes, and what all such arcs of a vertex hand back is its share.
-/

namespace GraphKernels.Graph

open Finset

variable {g : Graph} {source u v t d k : Nat}

/-- The depth of a vertex that can be reached. -/
noncomputable def hops (g : Graph) (source t : Nat) : Nat := sInf {k | g.Walk source k t}

/-- The hops of a vertex are its depth. -/
theorem AtDepth.hops_eq (h : g.AtDepth source d t) : g.hops source t = d := by
  have hwalk : g.Walk source (g.hops source t) t := Nat.sInf_mem (s := {k | g.Walk source k t}) ⟨d, h.1⟩
  exact Nat.le_antisymm (Nat.sInf_le h.1) (h.2 _ hwalk)

/-- A vertex that can be reached is as deep as it has hops. -/
theorem Reachable.atDepth_hops (h : g.Reachable source t) : g.AtDepth source (g.hops source t) t := by
  obtain ⟨d, hd⟩ := reachable_iff_exists_atDepth.mp h
  rwa [hd.hops_eq]

/-- A vertex at some depth can be reached. -/
theorem AtDepth.reachable (h : g.AtDepth source d t) : g.Reachable source t :=
  reachable_iff_exists_atDepth.mpr ⟨d, h⟩

/-- Whether a vertex can be reached is told by choice. -/
noncomputable instance (g : Graph) (source : Nat) : DecidablePred (g.Reachable source) :=
  Classical.decPred _

/-- The vertices that can be reached. -/
noncomputable def reached (g : Graph) (source : Nat) : Finset Nat :=
  (range g.numVertices).filter (g.Reachable source)

/-- The reached vertices are those that can be reached. -/
theorem mem_reached : t ∈ g.reached source ↔ t < g.numVertices ∧ g.Reachable source t := by
  rw [reached, mem_filter, mem_range]

/-- The number of shortest routes that a vertex hands on to another one, along each of its arcs to it. -/
noncomputable def handedOn (g : Graph) (source u v : Nat) : Nat :=
  if g.Descends source u v then (g.targets u).count v * g.shortestCount source u else 0

/-- The shortest routes to a vertex below the source are handed on by the vertices one level up. -/
theorem AtDepth.shortestCount_eq_sum (hv : g.AtDepth source (d + 1) v) (hwell : g.WellFormed)
    (hsource : source < g.numVertices) :
    g.shortestCount source v = ∑ u ∈ range g.numVertices, g.handedOn source u v := by
  rw [hv.shortestCount_succ hwell hsource]
  refine sum_congr rfl fun u _ => ?_
  rw [handedOn]
  split
  · next hdescends => rw [(hv.descends_to_iff.mp hdescends).shortestCount_eq, Nat.mul_comm]
  · next hstays =>
    -- A walk of this length to a vertex with an arc to the lower one is a shortest walk.
    by_contra hne
    obtain ⟨hroutes, hcount⟩ := Nat.mul_ne_zero_iff.mp hne
    obtain ⟨route, hroute⟩ := card_ne_zero.mp hroutes
    have harc : g.HasArc u v := List.count_pos_iff.mp (Nat.pos_of_ne_zero hcount)
    have hwalk := walk_iff_exists_route.mpr ⟨route, mem_routes.mp hroute⟩
    obtain ⟨k, hu⟩ := reachable_iff_exists_atDepth.mp (reachable_iff_exists_walk.mpr ⟨d, hwalk⟩)
    obtain ⟨j, hj, hdepth⟩ := hu.exists_le harc
    have := hu.2 d hwalk
    have := hdepth.unique hv
    obtain rfl : k = d := by omega
    exact hstays (hv.descends_to_iff.mpr hu)

/-- The share of a vertex in the shortest routes from a source to all other vertices. -/
noncomputable def shareFrom (g : Graph) (source u : Nat) : ℚ :=
  ∑ t ∈ (g.reached source).erase u, (g.shortestCountThrough source t u : ℚ) / g.shortestCount source t

/-- A vertex that cannot be reached has no share. -/
theorem shareFrom_eq_zero (h : ¬ g.Reachable source u) : g.shareFrom source u = 0 := by
  apply sum_eq_zero
  intro t _
  rw [shortestCountThrough_eq_zero h, Nat.cast_zero, zero_div]

/-- The number of ways in which a shortest route can go on from one vertex to another. -/
noncomputable def onwardCount (g : Graph) (source u t : Nat) : Nat :=
  (g.routes (g.hops source t - g.hops source u) u t).card

/-- There is one way to stay. -/
theorem onwardCount_self (g : Graph) (source u : Nat) : g.onwardCount source u u = 1 := by
  rw [onwardCount, Nat.sub_self, card_routes_zero, if_pos rfl]

/-- A shortest route through a vertex leads there and goes on. -/
theorem shortestCountThrough_eq_mul (hu : g.Reachable source u) (ht : g.Reachable source t) (hne : t ≠ u) :
    g.shortestCountThrough source t u = g.shortestCount source u * g.onwardCount source u t := by
  rw [hu.atDepth_hops.shortestCountThrough_eq ht.atDepth_hops hne.symm, hu.atDepth_hops.shortestCount_eq,
    onwardCount]

/-- No shortest route goes on from a vertex to another one that is no deeper. -/
theorem onwardCount_eq_zero (hne : u ≠ t) (hle : g.hops source t ≤ g.hops source u) :
    g.onwardCount source u t = 0 := by
  rw [onwardCount, Nat.sub_eq_zero_of_le hle, card_routes_zero, if_neg hne]

/-- Shortest routes go on from a vertex through its successors. -/
theorem sum_onwardCount (hwell : g.WellFormed) (hu : g.AtDepth source d u) (ht : g.AtDepth source k t) :
    ((g.successors source u).map (g.onwardCount source · t)).sum =
      if t = u then 0 else g.onwardCount source u t := by
  have hsuccessor (v : Nat) (hv : v ∈ g.successors source u) : g.AtDepth source (d + 1) v :=
    hu.descends_iff.mp (mem_successors.mp hv).2
  by_cases hdeeper : d < k
  · have hne : t ≠ u := by
      rintro rfl
      have := hu.unique ht
      omega
    have hsplit := List.sum_map_filter_add_sum_map_filter_not (g.Descends source u)
      (fun v => (g.routes (k - (d + 1)) v t).card) (g.targets u)
    -- An arc that does not lead one level down is on no shortest route.
    have hother : (((g.targets u).filter fun v => ¬ g.Descends source u v).map
        fun v => (g.routes (k - (d + 1)) v t).card).sum = 0 := by
      apply List.sum_eq_zero
      intro count hcount
      obtain ⟨v, hv, rfl⟩ := List.mem_map.mp hcount
      obtain ⟨harc, hstays⟩ := List.mem_filter.mp hv
      obtain ⟨j, hj, hdepth⟩ := hu.exists_le harc
      have hlevel : j ≠ d + 1 := by
        rintro rfl
        exact of_decide_eq_true hstays (hu.descends_iff.mpr hdepth)
      exact card_routes_eq_zero hdepth ht (by omega)
    rw [hother, Nat.add_zero] at hsplit
    calc ((g.successors source u).map (g.onwardCount source · t)).sum
        = ((g.successors source u).map fun v => (g.routes (k - (d + 1)) v t).card).sum := by
          refine congrArg List.sum (List.map_congr_left fun v hv => ?_)
          rw [onwardCount, ht.hops_eq, (hsuccessor v hv).hops_eq]
      _ = (g.routes (k - (d + 1) + 1) u t).card := by
          rw [card_routes_succ hwell, successors, hsplit, sum_targets hwell]
          rfl
      _ = if t = u then 0 else g.onwardCount source u t := by
          rw [if_neg hne, onwardCount, ht.hops_eq, hu.hops_eq, show k - (d + 1) + 1 = k - d by omega]
  · have hzero : ((g.successors source u).map (g.onwardCount source · t)).sum = 0 := by
      apply List.sum_eq_zero
      intro count hcount
      obtain ⟨v, hv, rfl⟩ := List.mem_map.mp hcount
      have hdepth := hsuccessor v hv
      apply onwardCount_eq_zero
      · rintro rfl
        have := hdepth.unique ht
        omega
      · rw [ht.hops_eq, hdepth.hops_eq]
        omega
    rw [hzero]
    split
    · rfl
    · next hne =>
      rw [onwardCount_eq_zero (Ne.symm hne)]
      rw [ht.hops_eq, hu.hops_eq]
      omega

/-- The share of a vertex, and one for the vertex itself, as a sum over all vertices. -/
theorem one_add_shareFrom (hu : g.Reachable source u) (hlt : u < g.numVertices) :
    1 + g.shareFrom source u = ∑ t ∈ g.reached source,
      (g.shortestCount source u * g.onwardCount source u t : ℚ) / g.shortestCount source t := by
  have hpos := hu.atDepth_hops.shortestCount_pos
  have hself : (g.shortestCount source u * g.onwardCount source u u : ℚ) / g.shortestCount source u = 1 := by
    rw [onwardCount_self, Nat.cast_one, mul_one]
    exact div_self (by positivity)
  rw [← add_sum_erase _ _ (mem_reached.mpr ⟨hlt, hu⟩), hself, shareFrom]
  congr 1
  refine sum_congr rfl fun t ht => ?_
  obtain ⟨hne, ht⟩ := mem_erase.mp ht
  rw [shortestCountThrough_eq_mul hu (mem_reached.mp ht).2 hne, Nat.cast_mul]

/-- The share of a vertex is what its successors hand back. -/
theorem shareFrom_eq_sum (hwell : g.WellFormed) (hsource : source < g.numVertices)
    (hu : g.Reachable source u) : g.shareFrom source u =
      ((g.successors source u).map fun v =>
        (g.shortestCount source u : ℚ) / g.shortestCount source v * (1 + g.shareFrom source v)).sum := by
  have hdepth := hu.atDepth_hops
  -- For one end of the routes, the terms of all successors together are the term of the vertex.
  have hend (t : Nat) (ht : t ∈ g.reached source) : ((g.successors source u).map fun v =>
      (g.shortestCount source u * g.onwardCount source v t : ℚ) / g.shortestCount source t).sum =
        if t = u then 0 else (g.shortestCountThrough source t u : ℚ) / g.shortestCount source t := by
    have hsum := sum_onwardCount hwell hdepth (mem_reached.mp ht).2.atDepth_hops
    have hcast := congrArg (Nat.cast : ℕ → ℚ) hsum
    rw [Nat.cast_list_sum, List.map_map] at hcast
    simp only [mul_div_right_comm]
    rw [List.sum_map_mul_left]
    change _ * ((g.successors source u).map (Nat.cast ∘ (g.onwardCount source · t))).sum = _
    rw [hcast]
    split
    · rw [Nat.cast_zero, mul_zero]
    · next hne =>
      rw [shortestCountThrough_eq_mul hu (mem_reached.mp ht).2 hne, Nat.cast_mul, mul_div_right_comm]
  calc g.shareFrom source u
      = ∑ t ∈ g.reached source,
          if t = u then 0 else (g.shortestCountThrough source t u : ℚ) / g.shortestCount source t := by
        rw [shareFrom, ← filter_ne', sum_filter]
        exact sum_congr rfl fun t _ => ite_not ..
    _ = ∑ t ∈ g.reached source, ((g.successors source u).map fun v =>
          (g.shortestCount source u * g.onwardCount source v t : ℚ) / g.shortestCount source t).sum :=
        sum_congr rfl fun t ht => (hend t ht).symm
    _ = ((g.successors source u).map fun v => ∑ t ∈ g.reached source,
          (g.shortestCount source u * g.onwardCount source v t : ℚ) / g.shortestCount source t).sum :=
        (Multiset.sum_map_sum (m := (g.successors source u : Multiset Nat))).symm
    _ = ((g.successors source u).map fun v =>
          (g.shortestCount source u : ℚ) / g.shortestCount source v * (1 + g.shareFrom source v)).sum := by
        refine congrArg List.sum (List.map_congr_left fun v hv => ?_)
        have hv := hdepth.descends_iff.mp (mem_successors.mp hv).2
        have hpos := hv.shortestCount_pos
        have hne : (g.shortestCount source v : ℚ) ≠ 0 := by positivity
        rw [one_add_shareFrom hv.reachable (hv.lt_numVertices hwell hsource), mul_sum]
        refine sum_congr rfl fun t _ => ?_
        field_simp

end GraphKernels.Graph
