import GraphKernels.Proofs.Hops.Tree

/-!
# The summary of a search

A search that rests at some depth has taken one step for every level above it, in whichever direction, and
none of these levels was empty. So when its frontier has become empty it has counted the levels down to
the deepest vertex, and its tree has an entry for every vertex that can be reached. Neither number depends
on the thresholds.
-/

namespace GraphKernels

variable {g : Graph} {source d : Nat} {p : SearchParameters} {tree : Array (Option Nat)}

/-- A search reaches a level, and all levels above it have vertices. -/
def ReachedInTurn (g : Graph) (source d : Nat) (marks : Array Int) (members : Nat → Prop) : Prop :=
  ReachedLevel g source d marks members ∧ ∀ k < d, ∃ v, g.AtDepth source k v

/-- A step from a level with vertices leaves no gap. -/
theorem levelInvariant_reachedInTurn (hwell : g.WellFormed) (hmirrored : g.Mirrored)
    (hsource : source < g.numVertices) : LevelInvariant g (ReachedInTurn g source) := by
  apply (levelInvariant_reachedLevel hwell hmirrored hsource).and
  intro d before after members awake arcs hlevel habove hfrontier _ k hk
  rcases Nat.lt_or_eq_of_le (Nat.le_of_lt_succ hk) with hk | rfl
  · exact habove k hk
  · obtain ⟨u, hu⟩ := hfrontier
    exact ⟨u, (hlevel.2 u).mp hu⟩

/-- If a depth has no vertices and all depths above it have some, the deepest vertex lies just above it. -/
theorem Graph.isGreatest_depth (hempty : ∀ v, ¬ g.AtDepth source d v)
    (habove : ∀ k < d, ∃ v, g.AtDepth source k v) :
    ∃ deepest, d = deepest + 1 ∧ IsGreatest {k | ∃ v, g.AtDepth source k v} deepest := by
  have hsource : g.AtDepth source 0 source := Graph.AtDepth.zero_iff.mpr rfl
  cases d with
  | zero => exact absurd hsource (hempty source)
  | succ deepest =>
    refine ⟨deepest, rfl, habove deepest (Nat.lt_succ_self _), ?_⟩
    intro k hk
    obtain ⟨v, hv⟩ := hk
    by_contra hdeeper
    obtain ⟨u, hu⟩ := hv.exists_above (show deepest + 1 ≤ k by omega)
    exact hempty u hu

/-- The entries of a tree that have a parent are as many as the vertices that can be reached. -/
theorem IsHopTree.encard_reachable (h : IsHopTree g source tree) (hwell : g.WellFormed)
    (hsource : source < g.numVertices) :
    {v | g.Reachable source v}.encard = tree.countP Option.isSome := by
  have hlist : tree.toList = (List.range g.numVertices).map fun v => tree.getD v none := by
    apply List.ext_getElem
    · simp [h.size_eq]
    · intro v hv _
      have hv : v < tree.size := by simpa using hv
      simp [hv]
  have hcount : tree.countP Option.isSome =
      Nat.count (fun v => (tree.getD v none).isSome) g.numVertices := by
    rw [← Array.countP_toList, hlist, List.countP_map, Nat.count]
    congr 1
    funext v
    simp
  have hset : {v | g.Reachable source v} =
      ((Finset.range g.numVertices).filter fun v => (tree.getD v none).isSome : Finset Nat) := by
    ext v
    rw [Finset.mem_coe, Finset.mem_filter, Finset.mem_range, Set.mem_ofPred_eq]
    have hlt (hv : g.Reachable source v) : v < g.numVertices := by
      obtain ⟨k, hk⟩ := Graph.reachable_iff_exists_atDepth.mp hv
      exact hk.lt_numVertices hwell hsource
    rw [← and_iff_right_of_imp hlt]
    refine and_congr_right fun hv => ?_
    rw [← not_iff_not, ← h.none_iff v hv, getElem?_eq_getD none (h.size_eq.symm ▸ hv)]
    simp
  rw [hset, Set.encard_coe_eq_coe_finsetCard, hcount, Nat.count_eq_card_filter_range]

/-- The summary of a search counts the levels down to the deepest vertex and the vertices that can be
reached. -/
theorem Graph.hopTree_summary (hwell : g.WellFormed) (hmirrored : g.Mirrored)
    (hsource : source < g.numVertices) (halpha : 1 ≤ p.alpha) (hbeta : 1 ≤ p.beta) :
    ∃ deepest reached : Nat, IsGreatest {d | ∃ v, g.AtDepth source d v} deepest ∧
      {v | g.Reachable source v}.encard = reached ∧ ∃ tree events,
        g.hopTree source p = .ok ⟨tree, events ++ [.searchComplete source (deepest + 1) reached]⟩ := by
  have hend : Yields (g.searchFrom source p) fun s => ∃ d, s.Rests g (ReachedInTurn g source) d [] := by
    apply Graph.searchFrom_rests hwell (levelInvariant_reachedInTurn hwell hmirrored hsource) hsource
      halpha hbeta
    intro marks hsize hself hother
    exact ⟨Search.reachedLevel_ofSource hsize hself hother, fun k hk => absurd hk (Nat.not_lt_zero k)⟩
  obtain ⟨s, hs, d, hrests⟩ := hend
  have hstands : s.Stands g source d [] := { hrests with holds := hrests.holds.1 }
  have hempty (v : Nat) : ¬ g.AtDepth source d v := by
    rw [← hrests.holds.1.2 v]
    exact List.not_mem_nil
  obtain ⟨deepest, rfl, hgreatest⟩ := Graph.isGreatest_depth hempty hrests.holds.2
  have hreached := (hstands.isHopTree hwell hsource).encard_reachable hwell hsource
  refine ⟨deepest, _, hgreatest, hreached, s.tree, s.events.toList, ?_⟩
  rw [Graph.hopTree_eq hsource halpha hbeta hs, hrests.levels_eq]

/-- The summary of a search of a built graph reports one level more than the deepest vertex has hops, and
the number of vertices that can be reached, whatever the thresholds are. -/
theorem hopTree_summary_deepest {o : BuildOptions} {edges : List Edge} (hbuild : Graph.build o edges = .ok g)
    (hsource : source < g.numVertices) :
    ∃ deepest reached : Nat, IsGreatest {d | ∃ v, g.AtDepth source d v} deepest ∧
      {v | g.Reachable source v}.encard = reached ∧
      ∀ p : SearchParameters, 1 ≤ p.alpha → 1 ≤ p.beta → ∃ tree events,
        g.hopTree source p = .ok ⟨tree, events ++ [.searchComplete source (deepest + 1) reached]⟩ := by
  have hwell := Graph.wellFormed_build hbuild
  have hmirrored := Graph.mirrored_build hbuild
  obtain ⟨deepest, reached, hgreatest, hcard, _⟩ :=
    Graph.hopTree_summary (p := {}) hwell hmirrored hsource (by decide) (by decide)
  refine ⟨deepest, reached, hgreatest, hcard, fun p halpha hbeta => ?_⟩
  obtain ⟨deepest', reached', hgreatest', hcard', hrun⟩ :=
    Graph.hopTree_summary hwell hmirrored hsource halpha hbeta
  rw [hgreatest.unique hgreatest', Nat.cast_injective (hcard.symm.trans hcard')]
  exact hrun

/-- A directed graph with a loop at its deepest vertex, parallel arcs and a vertex that cannot be reached. -/
theorem hopTree_summary_deepest_loop :
    ∃ g, Graph.build { numVertices := some 5 } [⟨0, 1, 1⟩, ⟨0, 1, 2⟩, ⟨1, 2, 1⟩, ⟨2, 2, 5⟩, ⟨3, 0, 1⟩] = .ok g ∧
      ∃ deepest reached : Nat, IsGreatest {d | ∃ v, g.AtDepth 0 d v} deepest ∧
        {v | g.Reachable 0 v}.encard = reached ∧
        ∀ p : SearchParameters, 1 ≤ p.alpha → 1 ≤ p.beta → ∃ tree events,
          g.hopTree 0 p = .ok ⟨tree, events ++ [.searchComplete 0 (deepest + 1) reached]⟩ := by
  refine ⟨_, rfl, ?_⟩
  have hbuild : Graph.build { numVertices := some 5 }
      [⟨0, 1, 1⟩, ⟨0, 1, 2⟩, ⟨1, 2, 1⟩, ⟨2, 2, 5⟩, ⟨3, 0, 1⟩] = .ok _ := rfl
  exact hopTree_summary_deepest hbuild (by decide)

end GraphKernels
