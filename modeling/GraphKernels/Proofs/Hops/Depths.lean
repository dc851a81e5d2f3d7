import GraphKernels.Hops.Depths
import GraphKernels.Proofs.Graph.Constructible
import GraphKernels.Proofs.Graph.Walk

/-!
# The serial search finds the hop depths

The vertices reached so far are listed by ascending depth, those that wait for their expansion last, so
every vertex above the one that is being expanded has been expanded already. A vertex that is reached
only now therefore lies exactly one level further than the vertex it is reached from.
-/

namespace GraphKernels

variable {g : Graph} {source d u v : Nat}

/-- The depth of every vertex that can be reached, and none for the others. -/
structure IsDepths (g : Graph) (source : Nat) (depths : Array (Option Nat)) : Prop where
  size_eq : depths.size = g.numVertices
  getD_eq_some_iff : ∀ v d, depths.getD v none = some d ↔ g.AtDepth source d v

namespace DepthSearch

variable {s : DepthSearch} {done waiting : List Nat} {arcs : Nat → Nat → Prop}

/-- Some vertices are expanded and others wait, some arcs have been looked at, and all vertices down to
some depth are reached. -/
structure Spreads (g : Graph) (source d : Nat) (arcs : Nat → Nat → Prop) (done waiting : List Nat)
    (s : DepthSearch) : Prop where
  depths_size : s.depths.size = g.numVertices
  reached_eq : s.reached.toList = done ++ waiting
  expanded_eq : s.expanded = done.length
  nodup : (done ++ waiting).Nodup
  mem_iff : ∀ v, v ∈ done ++ waiting ↔ ∃ k, s.depths.getD v none = some k
  depth : ∀ v k, s.depths.getD v none = some k → g.AtDepth source k v ∧ k ≤ d + 1
  ascends : (done ++ waiting).Pairwise fun u v =>
    ∀ j k, g.AtDepth source j u → g.AtDepth source k v → j ≤ k
  late : ∀ v ∈ waiting, ∀ k, g.AtDepth source k v → d ≤ k
  complete : ∀ v k, k ≤ d → g.AtDepth source k v → v ∈ done ++ waiting
  closed : ∀ u v, arcs u v → v ∈ done ++ waiting

namespace Spreads

/-- The arcs can be described in other words. -/
theorem congr {others : Nat → Nat → Prop} (h : s.Spreads g source d arcs done waiting)
    (hiff : ∀ x y, arcs x y ↔ others x y) : s.Spreads g source d others done waiting :=
  { h with closed := fun u v harc => h.closed u v ((hiff u v).mpr harc) }

/-- Reached vertices have depths. -/
theorem exists_atDepth (h : s.Spreads g source d arcs done waiting) (hv : v ∈ done ++ waiting) :
    ∃ k ≤ d + 1, s.depths.getD v none = some k ∧ g.AtDepth source k v := by
  obtain ⟨k, hk⟩ := (h.mem_iff v).mp hv
  obtain ⟨hdepth, hle⟩ := h.depth v k hk
  exact ⟨k, hle, hk, hdepth⟩

/-- The next vertex in line is the first one that waits. -/
theorem next_eq (h : s.Spreads g source d arcs done waiting) : s.reached[s.expanded]? = waiting[0]? := by
  rw [← Array.getElem?_toList, h.reached_eq, h.expanded_eq, List.getElem?_append_right (Nat.le_refl _),
    Nat.sub_self]

/-- There are no more reached vertices than vertices. -/
theorem length_le (h : s.Spreads g source d arcs done waiting) :
    (done ++ waiting).length ≤ g.numVertices := by
  have hsubset : done ++ waiting ⊆ List.range g.numVertices := by
    intro v hv
    obtain ⟨k, _, hk, _⟩ := h.exists_atDepth hv
    rw [List.mem_range]
    by_contra hlt
    rw [getD_of_size_le (by rw [h.depths_size]; omega)] at hk
    cases hk
  simpa using (h.nodup.subperm hsubset).length_le

/-- A vertex that is not reached yet although an arc leads to it from the deepest complete level lies one
level further. -/
theorem atDepth_succ (h : s.Spreads g source d arcs done waiting) (hu : g.AtDepth source d u)
    (harc : g.HasArc u v) (hv : v ∉ done ++ waiting) : g.AtDepth source (d + 1) v := by
  obtain ⟨k, hk, hdepth⟩ := hu.exists_le harc
  have hlate : ¬ k ≤ d := fun hle => hv (h.complete v k hle hdepth)
  rwa [show d + 1 = k by omega]

/-- A vertex that is newly reached waits behind all others. -/
theorem push (h : s.Spreads g source d arcs done waiting) (hsize : v < g.numVertices)
    (hdepth : g.AtDepth source (d + 1) v) (hv : v ∉ done ++ waiting) :
    ({ s with
      depths := s.depths.setIfInBounds v (some (d + 1))
      reached := s.reached.push v } : DepthSearch).Spreads g source d
        (fun x y => arcs x y ∨ x = u ∧ y = v) done (waiting ++ [v]) where
  depths_size := by rw [Array.size_setIfInBounds, h.depths_size]
  reached_eq := by rw [Array.toList_push, h.reached_eq, List.append_assoc]
  expanded_eq := h.expanded_eq
  nodup := by
    rw [← List.append_assoc, ← List.concat_eq_append]
    exact h.nodup.concat hv
  mem_iff w := by
    rw [← List.append_assoc, List.mem_append, List.mem_singleton, h.mem_iff]
    by_cases hw : w = v
    · subst hw
      simp [getD_setIfInBounds_self (h.depths_size.symm ▸ hsize)]
    · rw [getD_setIfInBounds_of_ne hw]
      simp [hw]
  depth w k hk := by
    by_cases hw : w = v
    · subst hw
      rw [getD_setIfInBounds_self (h.depths_size.symm ▸ hsize), Option.some.injEq] at hk
      subst hk
      exact ⟨hdepth, Nat.le_refl _⟩
    · rw [getD_setIfInBounds_of_ne hw] at hk
      exact h.depth w k hk
  ascends := by
    rw [← List.append_assoc, List.pairwise_append]
    refine ⟨h.ascends, List.pairwise_singleton _ _, fun w hw x hx j k hj hk => ?_⟩
    obtain ⟨i, hi, _, hdepth'⟩ := h.exists_atDepth hw
    rw [List.mem_singleton.mp hx] at hk
    have hfirst := hdepth'.unique hj
    have hsecond := hdepth.unique hk
    omega
  late w hw k hk := by
    rcases List.mem_append.mp hw with hw | hw
    · exact h.late w hw k hk
    · rw [List.mem_singleton.mp hw] at hk
      have := hdepth.unique hk
      omega
  complete w k hk hw := by
    rw [← List.append_assoc]
    exact List.mem_append_left _ (h.complete w k hk hw)
  closed x y hxy := by
    rw [← List.append_assoc, List.mem_append, List.mem_singleton]
    rcases hxy with hxy | hxy
    · exact Or.inl (h.closed x y hxy)
    · exact Or.inr hxy.2

/-- Once a vertex is next in line, all vertices down to its depth are reached. -/
theorem complete_head (h : s.Spreads g source d (fun x y => x ∈ done ∧ g.HasArc x y) done (u :: waiting))
    {k j : Nat} (hu : g.AtDepth source k u) (hj : j ≤ k) (hv : g.AtDepth source j v) :
    v ∈ done ++ u :: waiting := by
  induction j generalizing v with
  | zero => exact h.complete v 0 (Nat.zero_le d) hv
  | succ j ih =>
    obtain ⟨p, hp, harc⟩ := hv.exists_parent
    have hreached := ih (by omega) hp
    -- The parent lies above the next vertex in line, so it does not wait any more.
    have hdone : p ∈ done := by
      refine (List.mem_append.mp hreached).resolve_right fun hwaits => ?_
      have hle : k ≤ j := by
        rcases List.mem_cons.mp hwaits with rfl | hwaits
        · exact Nat.le_of_eq (hu.unique hp)
        · have hascends := List.pairwise_cons.mp (List.pairwise_append.mp h.ascends).2.1
          exact hascends.1 p hwaits k j hu hp
      omega
    exact h.closed p v ⟨hdone, harc⟩

/-- The next vertex in line is the one whose arcs are looked at next. -/
theorem turn (h : s.Spreads g source d (fun x y => x ∈ done ∧ g.HasArc x y) done (u :: waiting))
    {k : Nat} (hu : g.AtDepth source k u) :
    ({ s with expanded := s.expanded + 1 } : DepthSearch).Spreads g source k
      (fun x y => x ∈ done ∧ g.HasArc x y) (done ++ [u]) waiting := by
  have hsplit : done ++ u :: waiting = done ++ [u] ++ waiting := by simp
  have hascends := h.ascends
  rw [List.pairwise_append, List.pairwise_cons] at hascends
  exact {
    depths_size := h.depths_size
    reached_eq := h.reached_eq.trans hsplit
    expanded_eq := by rw [h.expanded_eq, List.length_append, List.length_singleton]
    nodup := hsplit ▸ h.nodup
    mem_iff := hsplit ▸ h.mem_iff
    depth := fun v j hj => by
      obtain ⟨hdepth, hle⟩ := h.depth v j hj
      have := h.late u List.mem_cons_self k hu
      exact ⟨hdepth, by omega⟩
    ascends := hsplit ▸ h.ascends
    late := fun v hv j hj => hascends.2.1.1 v hv k j hu hj
    complete := fun v j hj hv => hsplit ▸ h.complete_head hu hj hv
    closed := fun x y harc => hsplit ▸ h.closed x y harc }

end Spreads

/-- Looking at one more arc of a vertex at the deepest complete level. -/
theorem reach_yields (h : s.Spreads g source d arcs done waiting) (hwell : g.WellFormed)
    (hu : g.AtDepth source d u) (harc : g.HasArc u v) :
    Yields (reach (some (d + 1)) s v) fun next =>
      ∃ waiting, next.Spreads g source d (fun x y => arcs x y ∨ x = u ∧ y = v) done waiting := by
  have hlt := hwell.lt_of_hasArc' harc
  have hsize : v < s.depths.size := h.depths_size.symm ▸ hlt
  rw [reach, readAt_eq_getD none hsize, ok_bind]
  cases hmark : s.depths.getD v none with
  | some k =>
    refine .ok ⟨waiting, { h with closed := fun x y hxy => ?_ }⟩
    rcases hxy with hxy | ⟨_, rfl⟩
    · exact h.closed x y hxy
    · exact (h.mem_iff y).mpr ⟨k, hmark⟩
  | none =>
    have hnew : v ∉ done ++ waiting := by simp [h.mem_iff, hmark]
    change Yields (do
      let depths ← writeAt s.depths v (some (d + 1))
      pure ({ s with depths, reached := s.reached.push v } : DepthSearch)) _
    rw [writeAt_eq_setIfInBounds _ hsize, ok_bind, Yields.pure_iff]
    exact ⟨waiting ++ [v], h.push hlt (h.atDepth_succ hu harc hnew) hnew⟩

/-- Expanding the next vertex in line looks at all of its arcs. -/
theorem expand_yields
    (h : s.Spreads g source d (fun x y => x ∈ done ∧ g.HasArc x y) done (u :: waiting))
    (hwell : g.WellFormed) :
    Yields (s.expand g u) fun next => ∃ k waiting, next.Spreads g source k
      (fun x y => x ∈ done ++ [u] ∧ g.HasArc x y) (done ++ [u]) waiting := by
  obtain ⟨k, _, hmark, hu⟩ := h.exists_atDepth (v := u) (by simp)
  have hlt : u < g.numVertices := by
    by_contra hge
    rw [getD_of_size_le (by rw [h.depths_size]; omega)] at hmark
    cases hmark
  have hsize : u < s.depths.size := h.depths_size.symm ▸ hlt
  rw [expand, readAt_eq_getD none hsize, ok_bind, hmark, hwell.outNeighbors_eq hlt, ok_bind]
  have hloop : Yields ((g.targets u).foldlM (reach (some (k + 1))) { s with expanded := s.expanded + 1 })
      fun next => ∃ waiting, next.Spreads g source k
        (fun x y => (x ∈ done ∧ g.HasArc x y) ∨ x = u ∧ y ∈ g.targets u) (done ++ [u]) waiting := by
    apply Yields.foldlM fun (seen : List Nat) (next : DepthSearch) => ∃ waiting, next.Spreads g source k
      (fun x y => (x ∈ done ∧ g.HasArc x y) ∨ x = u ∧ y ∈ seen) (done ++ [u]) waiting
    · exact ⟨waiting, (h.turn hu).congr fun x y => by simp⟩
    · intro seen v rest next hitems ⟨waiting, hnext⟩
      apply (reach_yields hnext hwell hu (by simp [Graph.HasArc, hitems])).mono
      intro next ⟨waiting, hnext⟩
      refine ⟨waiting, hnext.congr fun x y => ?_⟩
      rw [List.mem_append, List.mem_singleton, and_or_left, or_assoc]
  apply hloop.mono
  intro next ⟨waiting, hnext⟩
  refine ⟨k, waiting, hnext.congr fun x y => ?_⟩
  rw [List.mem_append, List.mem_singleton, or_and_right]
  refine or_congr_right (and_congr_right fun hx => ?_)
  rw [hx, Graph.HasArc]

/-- When no vertex waits any more, the depths are found. -/
theorem Spreads.isDepths (h : s.Spreads g source d (fun x y => x ∈ done ∧ g.HasArc x y) done []) :
    IsDepths g source s.depths where
  size_eq := h.depths_size
  getD_eq_some_iff v k := by
    refine ⟨fun hk => (h.depth v k hk).1, fun hv => ?_⟩
    have hreached : v ∈ done ++ [] := by
      induction k generalizing v with
      | zero => exact h.complete v 0 (Nat.zero_le d) hv
      | succ k ih =>
        obtain ⟨p, hp, harc⟩ := hv.exists_parent
        exact h.closed p v ⟨by simpa using ih p hp, harc⟩
    obtain ⟨j, _, hj, hdepth⟩ := h.exists_atDepth hreached
    rw [hj, hdepth.unique hv]

/-- The search ends, since no vertex is expanded twice. -/
theorem run_yields {fuel : Nat} (hwell : g.WellFormed)
    (h : s.Spreads g source d (fun x y => x ∈ done ∧ g.HasArc x y) done waiting)
    (hfuel : g.numVertices ≤ fuel + done.length) :
    Yields (run g fuel s) (IsDepths g source ·.depths) := by
  induction fuel generalizing d done waiting s with
  | zero =>
    have hlength := h.length_le
    rw [List.length_append] at hlength
    obtain rfl : waiting = [] := List.eq_nil_of_length_eq_zero (by omega)
    rw [run, h.next_eq]
    exact .ok h.isDepths
  | succ fuel ih =>
    rw [run, h.next_eq]
    cases waiting with
    | nil => exact .ok h.isDepths
    | cons u waiting =>
      apply (expand_yields h hwell).bind
      intro next ⟨k, waiting, hspreads⟩
      apply ih hspreads
      rw [List.length_append, List.length_singleton]
      omega

/-- A search starts with its source waiting. -/
theorem start_yields (hsource : source < g.numVertices) :
    Yields (start g.numVertices source) fun s =>
      s.Spreads g source 0 (fun x y => x ∈ [] ∧ g.HasArc x y) [] [source] := by
  have hsize : source < (Array.replicate g.numVertices (none : Option Nat)).size := by simpa using hsource
  have hself : g.AtDepth source 0 source := Graph.AtDepth.zero_iff.mpr rfl
  have hmark (v k : Nat) : ((Array.replicate g.numVertices none).setIfInBounds source (some 0)).getD v none =
      some k ↔ v = source ∧ k = 0 := by
    by_cases hv : v = source
    · subst hv
      rw [getD_setIfInBounds_self hsize, Option.some.injEq]
      simp [eq_comm]
    · rw [getD_setIfInBounds_of_ne hv]
      simp [Array.getD, hv]
  rw [start, writeAt_eq_setIfInBounds _ hsize, ok_bind, Yields.pure_iff]
  exact {
    depths_size := by simp
    reached_eq := rfl
    expanded_eq := rfl
    nodup := List.nodup_singleton _
    mem_iff := fun v => by
      simp only [hmark]
      simp
    depth := fun v k hk => by
      obtain ⟨rfl, rfl⟩ := (hmark v k).mp hk
      exact ⟨hself, Nat.zero_le _⟩
    ascends := List.pairwise_singleton _ _
    late := fun _ _ k _ => Nat.zero_le k
    complete := fun v k hk hv => by
      obtain rfl : k = 0 := Nat.le_zero.mp hk
      simpa using Graph.AtDepth.zero_iff.mp hv
    closed := fun u v harc => absurd harc.1 List.not_mem_nil }

end DepthSearch

/-- The serial search of a well-formed graph ends, and finds the depths from any of its vertices. -/
theorem Graph.depthsFrom_yields (hwell : g.WellFormed) (hsource : source < g.numVertices) :
    Yields (g.depthsFrom source) (IsDepths g source) := by
  rw [depthsFrom]
  apply (DepthSearch.start_yields hsource).bind
  intro s hs
  exact (DepthSearch.run_yields hwell hs (by simp)).bind fun _ hlast => .ok hlast

/-- A vertex has the depth that is the least number of arcs on a walk to it. -/
theorem IsDepths.getElem?_eq_some_iff {depths : Array (Option Nat)} (h : IsDepths g source depths)
    (hv : v < g.numVertices) : depths[v]? = some (some d) ↔ IsLeast {k | g.Walk source k v} d := by
  rw [getElem?_eq_getD none (h.size_eq.symm ▸ hv), Option.some.injEq, h.getD_eq_some_iff]
  rfl

/-- A vertex has no depth exactly when no walk leads to it. -/
theorem IsDepths.getElem?_eq_none_iff {depths : Array (Option Nat)} (h : IsDepths g source depths)
    (hv : v < g.numVertices) : depths[v]? = some none ↔ ∀ k, ¬ g.Walk source k v := by
  rw [getElem?_eq_getD none (h.size_eq.symm ▸ hv), Option.some.injEq, Option.eq_none_iff_forall_not_mem,
    ← not_exists, ← not_exists, ← Graph.reachable_iff_exists_walk, Graph.reachable_iff_exists_atDepth]
  exact not_congr (exists_congr fun d => h.getD_eq_some_iff v d)

/-- The serial search ends in every graph and from every vertex of it. It gives each vertex the least number
of arcs on a walk to it, which is below the number of vertices and so fits 32 bits as vertices do, and no
depth to the vertices that no walk leads to. -/
theorem Graph.hopDepths_least (h : g.Constructible) (hsource : source < g.numVertices) :
    ∃ depths, g.hopDepths source = .ok depths ∧ depths.size = g.numVertices ∧
      ∀ v < g.numVertices,
        (∀ d, depths[v]? = some (some d) ↔ IsLeast {k | g.Walk source k v} d) ∧
        (∀ d, depths[v]? = some (some d) → d < g.numVertices) ∧
        (depths[v]? = some none ↔ ∀ k, ¬ g.Walk source k v) := by
  obtain ⟨depths, hrun, hdepths⟩ := depthsFrom_yields h.wellFormed hsource
  have hinside : ¬ g.numVertices ≤ source := by omega
  refine ⟨depths, ?_, hdepths.size_eq, fun v hv => ⟨fun d => hdepths.getElem?_eq_some_iff hv, ?_,
    hdepths.getElem?_eq_none_iff hv⟩⟩
  · rw [hopDepths, checkVertex, if_neg hinside, hrun]
    rfl
  · intro d hd
    have hdepth : g.AtDepth source d v := (hdepths.getElem?_eq_some_iff hv).mp hd
    exact hdepth.depth_lt h.wellFormed hsource

/-- A graph whose tables list the arcs of an undirected graph in one direction only: two ways to one vertex,
parallel arcs, a cycle, a loop and a vertex that no walk leads to. -/
theorem Graph.hopDepths_least_oneSided :
    ∃ g, ofTables
        (.table [⟨"source", .words #[0, 0, 1, 0, 2, 3, 3, 4]⟩, ⟨"target", .words #[1, 1, 2, 2, 3, 0, 3, 0]⟩,
          ⟨"weight", .words #[1, 2, 3, 4, 5, 6, 7, 8]⟩])
        (.table [⟨"num_nodes", .longWords #[5]⟩, ⟨"directed", .flags #[false]⟩]) = .ok g ∧
      g.Constructible ∧ g.hopDepths 0 = .ok #[some 0, some 1, some 1, some 2, none] ∧
      ∃ depths, g.hopDepths 0 = .ok depths ∧ depths.size = g.numVertices ∧
        ∀ v < g.numVertices,
          (∀ d, depths[v]? = some (some d) ↔ IsLeast {k | g.Walk 0 k v} d) ∧
          (∀ d, depths[v]? = some (some d) → d < g.numVertices) ∧
          (depths[v]? = some none ↔ ∀ k, ¬ g.Walk 0 k v) := by
  refine ⟨_, rfl, ?_⟩
  have hread : ofTables
      (.table [⟨"source", .words #[0, 0, 1, 0, 2, 3, 3, 4]⟩, ⟨"target", .words #[1, 1, 2, 2, 3, 0, 3, 0]⟩,
        ⟨"weight", .words #[1, 2, 3, 4, 5, 6, 7, 8]⟩])
      (.table [⟨"num_nodes", .longWords #[5]⟩, ⟨"directed", .flags #[false]⟩]) = .ok _ := rfl
  exact ⟨.tables hread, by decide +kernel, hopDepths_least (.tables hread) (by decide)⟩

end GraphKernels
