import GraphKernels.Proofs.Hops.Search

/-!
# Trees of shortest hop paths

What a search leaves behind once its frontier is empty: every vertex that can be reached has a parent one
level up, so that going up from parent to parent takes a shortest path back to the source. The
thresholds of a search decide which parents it finds, but never how far up the source is.
-/

namespace GraphKernels

variable {g : Graph} {source v d : Nat}

/-- The vertex that lies some number of parents up. -/
def climb (tree : Array (Option Nat)) : Nat → Nat → Option Nat
  | 0, v => some v
  | k + 1, v => tree[v]?.join.bind (climb tree k)

/-- The source is its own parent, the vertices that cannot be reached have no parent, and all others have
a parent with an arc to them, one level up. -/
structure IsHopTree (g : Graph) (source : Nat) (tree : Array (Option Nat)) : Prop where
  size_eq : tree.size = g.numVertices
  source_eq : tree[source]? = some (some source)
  none_iff : ∀ v < g.numVertices, tree[v]? = some none ↔ ¬ g.Reachable source v
  parent : ∀ v, v ≠ source → g.Reachable source v → ∃ p d, tree[v]? = some (some p) ∧ g.HasArc p v ∧
    g.AtDepth source d p ∧ g.AtDepth source (d + 1) v

/-- Going up from a vertex reaches the source after as many parents as the vertex is deep, and not
earlier. -/
theorem IsHopTree.climb_eq {tree : Array (Option Nat)} (h : IsHopTree g source tree)
    (hv : g.AtDepth source d v) :
    climb tree d v = some source ∧ ∀ k < d, climb tree k v ≠ some source := by
  induction d generalizing v with
  | zero =>
    rw [Graph.AtDepth.zero_iff] at hv
    subst hv
    exact ⟨rfl, fun k hk => by omega⟩
  | succ d ih =>
    have hne : v ≠ source := by
      intro heq
      have := hv.unique (Graph.AtDepth.zero_iff.mpr heq)
      omega
    obtain ⟨p, k, hparent, _, hp, hk⟩ := h.parent v hne (Graph.reachable_iff_exists_atDepth.mpr ⟨_, hv⟩)
    have hdepth : k = d := Nat.succ.inj (hk.unique hv)
    subst hdepth
    have hup (j : Nat) : climb tree (j + 1) v = climb tree j p := by simp [climb, hparent]
    obtain ⟨hreaches, hearlier⟩ := ih hp
    refine ⟨(hup k).trans hreaches, fun j hj => ?_⟩
    cases j with
    | zero => simpa [climb] using hne
    | succ j =>
      rw [hup]
      exact hearlier j (by omega)

/-- Once an empty level is reached, the visited vertices are those that can be reached. -/
theorem Reached.visited_iff_reachable {marks : Array Int} (h : Reached g source d marks)
    (hempty : ∀ v, ¬ g.AtDepth source d v) (hv : v < g.numVertices) :
    0 ≤ marks.getD v 0 ↔ g.Reachable source v := by
  rw [h.visited_iff v hv, Graph.reachable_iff_exists_atDepth]
  constructor
  · intro ⟨k, _, hdepth⟩
    exact ⟨k, hdepth⟩
  · intro ⟨k, hdepth⟩
    refine ⟨k, ?_, hdepth⟩
    by_contra hdeep
    obtain ⟨u, hu⟩ := hdepth.exists_above (show d ≤ k by omega)
    exact hempty u hu

/-- A search that stands at an empty level has a tree of shortest hop paths. -/
theorem Search.Stands.isHopTree {s : Search} (h : s.Stands g source d []) (hwell : g.WellFormed)
    (hsource : source < g.numVertices) : IsHopTree g source s.tree := by
  have hempty (v : Nat) : ¬ g.AtDepth source d v := by
    rw [← h.holds.2]
    exact List.not_mem_nil
  have hentry (v : Nat) (hv : v < g.numVertices) : s.tree[v]? =
      some (if 0 ≤ s.parents.getD v 0 then some (s.parents.getD v 0).toNat else none) := by
    have hsize : v < s.parents.size := by rwa [h.holds.1.size_eq]
    rw [Search.tree, Array.getElem?_map, getElem?_eq_getD 0 hsize]
    rfl
  have hvisited (v : Nat) (hv : v < g.numVertices) := h.holds.1.visited_iff_reachable hempty hv
  exact {
    size_eq := by rw [Search.tree, Array.size_map, h.holds.1.size_eq]
    source_eq := by
      rw [hentry source hsource, h.holds.1.source_eq]
      simp
    none_iff := fun v hv => by
      rw [hentry v hv, ← hvisited v hv]
      simp
    parent := fun v hne hreachable => by
      obtain ⟨k, hdepth⟩ := Graph.reachable_iff_exists_atDepth.mp hreachable
      have hv := hdepth.lt_numVertices hwell hsource
      have hmark := (hvisited v hv).mpr hreachable
      obtain ⟨p, k, hparent, harc, hp, hk⟩ := h.holds.1.parent v hv hne hmark
      refine ⟨p, k, ?_, harc, hp, hk⟩
      rw [hentry v hv, if_pos hmark, hparent]
      rfl }

/-- Positive shares are accepted. -/
theorem SearchParameters.validate_eq {p : SearchParameters} (halpha : 1 ≤ p.alpha)
    (hbeta : 1 ≤ p.beta) : p.validate = .ok () := by
  simp only [validate, requirePositive]
  rw [if_neg (by omega), ok_bind, if_neg (by omega)]

/-- What is made of a search that has ended: its tree, and a summary behind its events. -/
theorem Graph.hopTree_eq {p : SearchParameters} {s : Search} (hsource : source < g.numVertices)
    (halpha : 1 ≤ p.alpha) (hbeta : 1 ≤ p.beta) (hs : g.searchFrom source p = .ok s) :
    g.hopTree source p = .ok ⟨s.tree, s.events.toList ++
      [.searchComplete source s.levels (s.tree.countP Option.isSome)]⟩ := by
  have hinside : ¬ g.numVertices ≤ source := by omega
  simp only [Graph.hopTree, SearchParameters.validate_eq halpha hbeta, hs, hinside, if_false]
  rfl

/-- A search of a built graph ends, whatever its thresholds are, and gives a tree of shortest hop paths:
going up from parent to parent leads from any vertex that can be reached to the source in as many steps
as the vertex has hops from it. -/
theorem hopTree_shortest {o : BuildOptions} {edges : List Edge} {p : SearchParameters}
    (hbuild : Graph.build o edges = .ok g) (hsource : source < g.numVertices) (halpha : 1 ≤ p.alpha)
    (hbeta : 1 ≤ p.beta) :
    ∃ tree events, g.hopTree source p = .ok ⟨tree, events⟩ ∧ IsHopTree g source tree ∧
      ∀ v d, g.AtDepth source d v →
        climb tree d v = some source ∧ ∀ k < d, climb tree k v ≠ some source := by
  have hwell := Graph.wellFormed_build hbuild
  have hinv := levelInvariant_reachedLevel hwell (Graph.mirrored_build hbuild) hsource
  have hsearch : Yields (g.searchFrom source p) fun s => ∃ d, s.Stands g source d [] := by
    apply Graph.searchFrom_rests hwell hinv hsource halpha hbeta
    intro marks hsize hself hother
    exact Search.reachedLevel_ofSource hsize hself hother
  obtain ⟨s, hs, d, hstands⟩ := hsearch
  have htree := hstands.isHopTree hwell hsource
  exact ⟨s.tree, _, Graph.hopTree_eq hsource halpha hbeta hs, htree, fun v d hv => htree.climb_eq hv⟩

/-- A directed graph with parallel arcs, a loop and a vertex that cannot be reached. -/
theorem hopTree_shortest_loop :
    ∃ g, Graph.build { numVertices := some 4 } [⟨0, 1, 1⟩, ⟨0, 1, 2⟩, ⟨1, 2, 1⟩, ⟨2, 2, 5⟩] = .ok g ∧
      ∃ tree events, g.hopTree 0 {} = .ok ⟨tree, events⟩ ∧ IsHopTree g 0 tree ∧
        ∀ v d, g.AtDepth 0 d v → climb tree d v = some 0 ∧ ∀ k < d, climb tree k v ≠ some 0 := by
  refine ⟨_, rfl, ?_⟩
  have hbuild : Graph.build { numVertices := some 4 }
      [⟨0, 1, 1⟩, ⟨0, 1, 2⟩, ⟨1, 2, 1⟩, ⟨2, 2, 5⟩] = .ok _ := rfl
  exact hopTree_shortest hbuild (by decide) (by decide) (by decide)

end GraphKernels
