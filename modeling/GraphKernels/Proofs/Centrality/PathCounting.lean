import GraphKernels.Proofs.Centrality.PathLevel

/-!
# Counting the shortest paths from a source

Path counting stands at one level after the other. The queue holds all levels so far, the window is the
last one, and the arcs that leave the levels before it have been looked at. It ends at an empty level, when
the queue holds every vertex that can be reached, level by level.
-/

namespace GraphKernels

variable {N W : Type} {ops : ScoreArithmetic N W} {g : Graph} {source d u v : Nat}

namespace PathCounting

variable {s : PathCounting W} {levels : List (List Nat)} {frontier : List Nat}

/-- Path counting stands at a level: the levels before it are expanded. -/
structure Stands (ops : ScoreArithmetic N W) (g : Graph) (source : Nat) (levels : List (List Nat))
    (frontier : List Nat) (s : PathCounting W) : Prop where
  level : ∀ d ≤ levels.length, IsLevel g source d ((levels ++ [frontier]).getD d [])
  nonempty : ∀ items ∈ levels, items ≠ []
  shows : s.queue.Shows frontier
  history_eq : s.queue.history = levels.flatten ++ frontier
  capacity_eq : s.queue.capacity = g.numVertices
  starts_eq : s.levelStarts.toList ++ [s.queue.windowStart] = runningSums 0 (levels.map List.length)
  depths_size : s.depths.size = g.numVertices
  depth_iff : ∀ v k, s.depths.getD v none = some k ↔ g.AtDepth source k v ∧ k ≤ levels.length
  passes : Passes ops g source (levels.flatten.flatMap g.placedArcs) s.successors s.counts

/-- Path counting has ended: every level is expanded. -/
structure Counted (ops : ScoreArithmetic N W) (g : Graph) (source : Nat) (levels : List (List Nat))
    (s : PathCounting W) : Prop where
  level : ∀ d, IsLevel g source d (levels.getD d [])
  nonempty : ∀ items ∈ levels, items ≠ []
  tail_le : s.queue.tail ≤ s.queue.capacity
  history_eq : s.queue.history = levels.flatten
  capacity_eq : s.queue.capacity = g.numVertices
  starts_eq : s.levelStarts.toList = runningSums 0 (levels.map List.length)
  passes : Passes ops g source (levels.flatten.flatMap g.placedArcs) s.successors s.counts

namespace Stands

/-- The frontier is the level behind the expanded ones. -/
theorem isLevel_frontier (h : s.Stands ops g source levels frontier) :
    IsLevel g source levels.length frontier := by
  have hlevel := h.level levels.length (Nat.le_refl _)
  rwa [List.getD_append_right _ _ _ _ (Nat.le_refl _), Nat.sub_self] at hlevel

/-- The levels so far are graded. -/
theorem graded (h : s.Stands ops g source levels frontier) : Graded g source (levels ++ [frontier]) := by
  apply Graded.ofLevels
  intro d hd
  rw [List.length_append, List.length_singleton] at hd
  exact h.level d (by omega)

/-- Vertices of expanded levels lie above the frontier. -/
theorem exists_lt (h : s.Stands ops g source levels frontier) (hu : u ∈ levels.flatten) :
    ∃ k < levels.length, g.AtDepth source k u := by
  have hgraded : Graded g source levels := Graded.ofLevels fun d hd => by
    have hlevel := h.level d (Nat.le_of_lt hd)
    rwa [List.getD_append _ _ _ _ hd] at hlevel
  obtain ⟨k, hk, _, hdepth⟩ := hgraded.exists_atDepth hu
  exact ⟨k, hk, hdepth⟩

/-- The items published so far are those of the levels. -/
theorem tail_eq (h : s.Stands ops g source levels frontier) :
    s.queue.tail = (levels ++ [frontier]).flatten.length := by
  rw [← WindowQueue.history_length h.shows.tail_le, h.history_eq]
  simp

/-- There is room for the next level. -/
theorem hasRoom (h : s.Stands ops g source levels frontier) (hwell : g.WellFormed)
    (hsource : source < g.numVertices) : HasRoom g source (levels.length + 1) s.queue := by
  intro items hnodup hdepth
  have hgraded : Graded g source (levels ++ [frontier] ++ [items]) :=
    h.graded.concat hnodup (by simpa using hdepth)
  have hle := hgraded.length_flatten_le hwell hsource
  rw [List.flatten_append, List.flatten_singleton, List.length_append] at hle
  rwa [h.tail_eq, h.capacity_eq]

/-- The expansion of the frontier starts with the arcs that leave the levels above it. -/
theorem tracks (h : s.Stands ops g source levels frontier) : LevelExpansion.Tracks ops g source
    levels.length s.queue (levels.flatten.flatMap g.placedArcs)
    ⟨s.depths, s.counts, s.successors, { queue := s.queue }⟩ := by
  have habove (b : PlacedArc) (hb : b ∈ levels.flatten.flatMap g.placedArcs) :
      ∃ k < levels.length, g.AtDepth source k b.source ∧ g.HasArc b.source b.target := by
    obtain ⟨u, hu, hb⟩ := List.mem_flatMap.mp hb
    obtain ⟨rfl, harc⟩ := Graph.mem_placedArcs.mp hb
    obtain ⟨k, hk, hdepth⟩ := h.exists_lt hu
    exact ⟨k, hk, hdepth, Graph.hasArc_iff_exists_arcAt.mpr ⟨_, harc⟩⟩
  refine ⟨h.passes, fun b hb => ?_, [], ?_⟩
  · obtain ⟨k, hk, hdepth, _⟩ := habove b hb
    exact ⟨k, Nat.le_of_lt hk, hdepth⟩
  · exact {
      nodup := List.nodup_nil
      depths_size := h.depths_size
      depth_iff := fun v k => by simpa using h.depth_iff v k
      carries := Batch.carries_nil h.shows.tail_le
      mem_iff := fun v => by
        -- No arc from above the frontier leads below it.
        refine iff_of_false List.not_mem_nil fun ⟨hv, b, hb, heq⟩ => ?_
        subst heq
        obtain ⟨k, hk, hdepth, harc⟩ := habove b hb
        obtain ⟨j, hj, hdepth'⟩ := hdepth.exists_le harc
        have := hdepth'.unique hv
        omega }

/-- Once all arcs of the frontier are looked at, what is claimed is the next level. -/
theorem isLevel_awake {awake : List Nat} {queue : WindowQueue} {depths : Array (Option Nat)}
    {claimed : Batch} (h : s.Stands ops g source levels frontier)
    (hclaims : Claims g source levels.length queue ((levels.flatten ++ frontier).flatMap g.placedArcs)
      awake depths claimed) : IsLevel g source (levels.length + 1) awake where
  nodup := hclaims.nodup
  mem_iff v := by
    rw [hclaims.mem_iff, and_iff_left_iff_imp]
    intro hv
    obtain ⟨u, hu, harc⟩ := hv.exists_parent
    obtain ⟨position, harc⟩ := Graph.hasArc_iff_exists_arcAt.mp harc
    have hfrontier := (h.isLevel_frontier.mem_iff u).mpr hu
    exact ⟨⟨u, v, position⟩, List.mem_flatMap.mpr
      ⟨u, List.mem_append_right _ hfrontier, Graph.mem_placedArcs.mpr ⟨rfl, harc⟩⟩, rfl⟩

/-- The next level is one more level. -/
theorem level_concat {items : List Nat} (h : s.Stands ops g source levels frontier)
    (hitems : IsLevel g source (levels.length + 1) items) (hd : d ≤ levels.length + 1) :
    IsLevel g source d ((levels ++ [frontier] ++ [items]).getD d []) := by
  have hlength : (levels ++ [frontier]).length = levels.length + 1 := by simp
  rcases Nat.lt_or_ge d (levels.length + 1) with hlt | hge
  · rw [List.getD_append _ _ _ _ (by omega)]
    exact h.level d (Nat.le_of_lt_succ hlt)
  · obtain rfl := Nat.le_antisymm hd hge
    rw [List.getD_append_right _ _ _ _ (by omega), hlength, Nat.sub_self]
    exact hitems

/-- All arcs that leave the frontier are looked at. -/
theorem expand_yields (h : s.Stands ops g source levels frontier) (hwell : g.WellFormed)
    (hsource : source < g.numVertices) :
    Yields (frontier.foldlM (LevelExpansion.expand ops g (levels.length + 1))
      ⟨s.depths, s.counts, s.successors, { queue := s.queue }⟩)
      (LevelExpansion.Tracks ops g source levels.length s.queue
        ((levels.flatten ++ frontier).flatMap g.placedArcs)) := by
  apply Yields.foldlM fun (done : List Nat) (e : LevelExpansion W) =>
    e.Tracks ops g source levels.length s.queue ((levels.flatten ++ done).flatMap g.placedArcs)
  · rw [List.append_nil]
    exact h.tracks
  · intro done u rest e hitems he
    have hu := (h.isLevel_frontier.mem_iff u).mp (by simp [hitems])
    have hlt := hu.lt_numVertices hwell hsource
    apply (LevelExpansion.expand_yields he hwell (h.hasRoom hwell hsource) hu hlt).mono
    intro e he
    rwa [← List.append_assoc, List.flatMap_append, List.flatMap_singleton]

end Stands

/-- Expanding a level that is not empty makes the next one the frontier. -/
theorem advance_yields (h : s.Stands ops g source levels frontier) (hwell : g.WellFormed)
    (hsource : source < g.numVertices) (hfrontier : frontier ≠ []) :
    Yields (s.advance ops g levels.length) fun next =>
      ∃ items, next.Stands ops g source (levels ++ [frontier]) items := by
  rw [advance, h.shows.window_eq, ok_bind]
  apply (h.expand_yields hwell hsource).bind
  intro e ⟨hpasses, _, awake, hclaims⟩
  have hlevel := h.isLevel_awake hclaims
  have hlength : (levels ++ [frontier]).length = levels.length + 1 := by simp
  apply (Batch.close_yields hclaims.carries (hclaims.length_le (h.hasRoom hwell hsource))).mapError.bind
  intro queue hqueue
  refine .ok ⟨awake, ?_⟩
  exact {
    level := fun d hd => h.level_concat hlevel (hlength ▸ hd)
    nonempty := fun items hitems => by
      rcases List.mem_append.mp hitems with hitems | hitems
      · exact h.nonempty items hitems
      · exact List.mem_singleton.mp hitems ▸ hfrontier
    shows := hqueue.slide_shows h.shows.windowEnd_eq
    history_eq := by
      rw [WindowQueue.history_slide, hqueue.history_eq, h.history_eq]
      simp
    capacity_eq := hqueue.capacity_eq.trans h.capacity_eq
    starts_eq := by
      change (s.levelStarts.push s.queue.windowStart).toList ++ [queue.windowEnd] = _
      rw [Array.toList_push, h.starts_eq, hqueue.windowEnd_eq, h.shows.windowEnd_eq, h.tail_eq,
        List.map_append, List.map_singleton, runningSums_concat, Nat.zero_add, List.length_flatten,
        List.map_append, List.map_singleton]
    depths_size := hclaims.depths_size
    depth_iff := fun v k => by
      rw [hclaims.depth_iff, hlength, hlevel.mem_iff]
      refine and_congr_right fun hk => ?_
      rw [hk.iff_eq]
      omega
    passes := by
      rw [List.flatten_append, List.flatten_singleton]
      exact hpasses }

/-- Path counting has ended once it stands at an empty level. -/
theorem Stands.counted (h : s.Stands ops g source levels []) :
    Counted ops g source levels { s with levelStarts := s.levelStarts.push s.queue.windowStart } where
  nonempty := h.nonempty
  tail_le := h.shows.tail_le
  history_eq := by rw [h.history_eq, List.append_nil]
  capacity_eq := h.capacity_eq
  starts_eq := by rw [Array.toList_push, h.starts_eq]
  passes := h.passes
  level d := by
    rcases Nat.lt_or_ge d levels.length with hd | hd
    · have hlevel := h.level d (Nat.le_of_lt hd)
      rwa [List.getD_append _ _ _ _ hd] at hlevel
    · rw [List.getD_eq_default _ _ hd]
      refine ⟨List.nodup_nil, fun v => iff_of_false List.not_mem_nil fun hv => ?_⟩
      obtain ⟨u, hu⟩ := hv.exists_above hd
      exact List.not_mem_nil ((h.isLevel_frontier.mem_iff u).mpr hu)

/-- There are fewer expanded levels than vertices as long as the frontier is not empty. -/
theorem Stands.length_lt (h : s.Stands ops g source levels frontier) (hwell : g.WellFormed)
    (hsource : source < g.numVertices) (hfrontier : frontier ≠ []) : levels.length < g.numVertices := by
  have hle := h.graded.length_flatten_le hwell hsource
  have hmany := List.length_le_sum_of_one_le ((levels ++ [frontier]).map List.length) fun size hsize => by
    obtain ⟨items, hitems, rfl⟩ := List.mem_map.mp hsize
    rcases List.mem_append.mp hitems with hitems | hitems
    · exact List.length_pos_iff.mpr (h.nonempty items hitems)
    · exact List.length_pos_iff.mpr (List.mem_singleton.mp hitems ▸ hfrontier)
  rw [← List.length_flatten, List.length_map, List.length_append, List.length_singleton] at hmany
  omega

/-- Path counting ends at an empty level. Every expanded level has a vertex, which bounds the number of
levels. -/
theorem run_yields {fuel : Nat} (h : s.Stands ops g source levels frontier) (hwell : g.WellFormed)
    (hsource : source < g.numVertices) (hfuel : g.numVertices ≤ fuel + levels.length) :
    Yields (run ops g fuel levels.length s) fun last => ∃ levels, last.Counted ops g source levels := by
  induction fuel generalizing levels frontier s with
  | zero =>
    have hfrontier : frontier = [] := by
      by_contra hne
      have := h.length_lt hwell hsource hne
      omega
    subst hfrontier
    rw [run, if_pos (h.shows.isEmpty_iff.mpr rfl)]
    exact .ok ⟨levels, h.counted⟩
  | succ fuel ih =>
    by_cases hfrontier : frontier = []
    · subst hfrontier
      rw [run, if_pos (h.shows.isEmpty_iff.mpr rfl)]
      exact .ok ⟨levels, h.counted⟩
    · rw [run, if_neg fun hempty => hfrontier (h.shows.isEmpty_iff.mp hempty)]
      apply (advance_yields h hwell hsource hfrontier).bind
      intro next ⟨items, hnext⟩
      have hlength : (levels ++ [frontier]).length = levels.length + 1 := by simp
      rw [← hlength]
      exact ih hnext (by omega)

/-- Nothing is left of an earlier count. -/
structure Fresh (ops : ScoreArithmetic N W) (g : Graph) (s : PathCounting W) : Prop where
  counts_eq : s.counts = Array.replicate g.numVertices ops.wideZero
  successors : s.successors.Holds g.numArcs fun _ => False
  tail_eq : s.queue.tail = 0
  windowEnd_eq : s.queue.windowEnd = 0
  capacity_eq : s.queue.capacity = g.numVertices
  levelStarts_eq : s.levelStarts = #[]

/-- A fresh count starts at the level of its source. -/
theorem start_yields (h : s.Fresh ops g) (hsource : source < g.numVertices) :
    Yields (s.start ops g.numVertices source) (Stands ops g source [] [source]) := by
  have hdepths : source < (Array.replicate g.numVertices (none : Option Nat)).size := by simpa using hsource
  have hcounts : source < s.counts.size := by simpa [h.counts_eq] using hsource
  have hroom : s.queue.tail < s.queue.capacity := by
    rw [h.tail_eq, h.capacity_eq]
    omega
  rw [start, writeAt_eq_setIfInBounds _ hdepths, ok_bind, writeAt_eq_setIfInBounds _ hcounts, ok_bind]
  apply (WindowQueue.push_yields hroom).mapError.bind
  intro queue hqueue
  have hhistory : s.queue.history = [] := by simp [WindowQueue.history, h.tail_eq]
  refine .ok ?_
  exact {
    level := fun d hd => by
      obtain rfl : d = 0 := Nat.le_zero.mp hd
      exact ⟨List.nodup_singleton _, fun v => by rw [Graph.AtDepth.zero_iff]; exact List.mem_singleton⟩
    nonempty := fun items hitems => absurd hitems List.not_mem_nil
    shows := hqueue.slide_shows (h.windowEnd_eq.trans h.tail_eq.symm)
    history_eq := by
      rw [WindowQueue.history_slide, hqueue.history_eq, hhistory]
      rfl
    capacity_eq := hqueue.capacity_eq.trans h.capacity_eq
    starts_eq := by
      change s.levelStarts.toList ++ [queue.windowEnd] = [0]
      rw [h.levelStarts_eq, hqueue.windowEnd_eq, h.windowEnd_eq]
      rfl
    depths_size := by simp
    depth_iff := fun v k => by
      by_cases hv : v = source
      · subst hv
        rw [getD_setIfInBounds_self hdepths, Option.some.injEq]
        constructor
        · intro heq
          subst heq
          exact ⟨Graph.AtDepth.zero_iff.mpr rfl, Nat.le_refl 0⟩
        · intro hk
          exact (Nat.le_zero.mp hk.2).symm
      · rw [getD_setIfInBounds_of_ne hv]
        refine iff_of_false (by simp [Array.getD]) fun hk => hv ?_
        obtain rfl : k = 0 := Nat.le_zero.mp hk.2
        exact Graph.AtDepth.zero_iff.mp hk.1
    passes := {
      marks := h.successors.congr fun e => by simp [Graph.descents]
      counts_size := by simp [h.counts_eq]
      collects := fun v hv => by
        by_cases hv : v = source
        · subst hv
          rw [getD_setIfInBounds_self hcounts, if_pos rfl]
          rfl
        · rw [getD_setIfInBounds_of_ne hv, if_neg hv, h.counts_eq]
          simp [Array.getD, Graph.descents, inflow] } }

/-- Counting from a source ends with all of its levels expanded. -/
theorem ofSource_yields (h : s.Fresh ops g) (hwell : g.WellFormed) (hsource : source < g.numVertices) :
    Yields (s.ofSource ops g source) fun last => ∃ levels, last.Counted ops g source levels := by
  apply (start_yields h hsource).bind
  intro first hfirst
  exact run_yields hfirst hwell hsource (Nat.le_refl _)

end PathCounting

end GraphKernels
