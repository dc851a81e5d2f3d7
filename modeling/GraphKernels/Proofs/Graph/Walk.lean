import GraphKernels.Proofs.Graph.Build

/-!
# Walks

Walks follow out-arcs. Their lengths give the hop distance of a vertex from a source, and the exact sums
of their weights give its least weight, which is infinite when there is no walk.
-/

namespace GraphKernels.Graph

variable {g : Graph} {source u v d k : Nat}

/-- A vertex can be reached from a source along out-arcs. -/
def Reachable (g : Graph) (source v : Nat) : Prop := Relation.ReflTransGen g.HasArc source v

/-- There is a walk of some number of arcs from a source to a vertex. -/
inductive Walk (g : Graph) (source : Nat) : Nat → Nat → Prop
  | start : Walk g source 0 source
  | step {k u v : Nat} (walk : Walk g source k u) (harc : g.HasArc u v) : Walk g source (k + 1) v

/-- The shortest walk from a source to a vertex has some number of arcs. -/
def AtDepth (g : Graph) (source d v : Nat) : Prop :=
  g.Walk source d v ∧ ∀ k, g.Walk source k v → d ≤ k

/-- The vertices that can be reached are those with a walk. -/
theorem reachable_iff_exists_walk : g.Reachable source v ↔ ∃ k, g.Walk source k v := by
  constructor
  · intro h
    induction h with
    | refl => exact ⟨0, .start⟩
    | tail _ harc ih =>
      obtain ⟨k, hwalk⟩ := ih
      exact ⟨k + 1, hwalk.step harc⟩
  · intro h
    obtain ⟨k, hwalk⟩ := h
    induction hwalk with
    | start => exact .refl
    | step _ harc ih => exact ih.tail harc

/-- The vertices that can be reached are those with a depth. -/
theorem reachable_iff_exists_atDepth : g.Reachable source v ↔ ∃ d, g.AtDepth source d v := by
  rw [reachable_iff_exists_walk]
  constructor
  · intro h
    classical
    exact ⟨Nat.find h, Nat.find_spec h, fun _ hwalk => Nat.find_min' h hwalk⟩
  · intro h
    obtain ⟨d, hwalk, _⟩ := h
    exact ⟨d, hwalk⟩

namespace AtDepth

/-- A vertex has one depth. -/
theorem unique (h : g.AtDepth source d v) (h' : g.AtDepth source k v) : d = k :=
  Nat.le_antisymm (h.2 k h'.1) (h'.2 d h.1)

/-- A vertex at some depth is at no other one. -/
theorem iff_eq (h : g.AtDepth source d v) : g.AtDepth source k v ↔ k = d := by
  constructor
  · intro hk
    exact hk.unique h
  · intro heq
    rwa [heq]

/-- The source is the only vertex at depth zero. -/
theorem zero_iff : g.AtDepth source 0 v ↔ v = source := by
  constructor
  · intro h
    obtain ⟨hwalk, _⟩ := h
    cases hwalk
    rfl
  · intro heq
    subst heq
    exact ⟨.start, fun _ _ => Nat.zero_le _⟩

/-- An arc leads at most one level down. -/
theorem exists_le (h : g.AtDepth source d u) (harc : g.HasArc u v) :
    ∃ k ≤ d + 1, g.AtDepth source k v := by
  have hwalk := h.1.step harc
  obtain ⟨k, hk⟩ := reachable_iff_exists_atDepth.mp (reachable_iff_exists_walk.mpr ⟨_, hwalk⟩)
  exact ⟨k, hk.2 _ hwalk, hk⟩

/-- Every vertex below the source has an in-neighbor one level up. -/
theorem exists_parent (h : g.AtDepth source (d + 1) v) :
    ∃ u, g.AtDepth source d u ∧ g.HasArc u v := by
  obtain ⟨hwalk, hleast⟩ := h
  cases hwalk with
  | step hwalk harc =>
    refine ⟨_, ⟨hwalk, fun k hk => ?_⟩, harc⟩
    have := hleast (k + 1) (hk.step harc)
    omega

/-- There are vertices at all depths down to that of a vertex. -/
theorem exists_above (h : g.AtDepth source d v) (hk : k ≤ d) : ∃ u, g.AtDepth source k u := by
  induction d, hk using Nat.le_induction generalizing v with
  | base => exact ⟨v, h⟩
  | succ d _ ih =>
    obtain ⟨u, hu, _⟩ := h.exists_parent
    exact ih hu

/-- Vertices with a depth are vertices of the graph. -/
theorem lt_numVertices (h : g.AtDepth source d v) (hwell : g.WellFormed)
    (hsource : source < g.numVertices) : v < g.numVertices := by
  cases h.1 with
  | start => exact hsource
  | step _ harc => exact hwell.lt_of_hasArc' harc

/-- A vertex has fewer hops than there are vertices, since one vertex lies at each depth above it. -/
theorem depth_lt (h : g.AtDepth source d v) (hwell : g.WellFormed) (hsource : source < g.numVertices) :
    d < g.numVertices := by
  choose! above habove using fun (k : Nat) (hk : k ≤ d) => h.exists_above hk
  have hcard : (Finset.range (d + 1)).card ≤ (Finset.range g.numVertices).card := by
    apply Finset.card_le_card_of_injOn above
    · intro k hk
      have hk : k ≤ d := by simpa using hk
      simpa using (habove k hk).lt_numVertices hwell hsource
    · intro k hk j hj heq
      have hk : k ≤ d := by simpa using hk
      have hj : j ≤ d := by simpa using hj
      exact (habove k hk).unique (heq ▸ habove j hj)
  rwa [Finset.card_range, Finset.card_range] at hcard

end AtDepth

/-! ### Weights of walks -/

/-- There is a walk from a source to a vertex whose weights have some exact sum. -/
inductive WeighedWalk (g : Graph) (source : Nat) : Nat → Nat → Prop
  | start : WeighedWalk g source 0 source
  | step {total u : Nat} {a : Arc} (walk : WeighedWalk g source total u)
      (harc : a ∈ g.forward.row u) : WeighedWalk g source (total + a.weight.toNat) a.target

/-- The least sum of weights on a walk from a source to a vertex, infinite if there is no walk. -/
noncomputable def leastWeight (g : Graph) (source v : Nat) : ℕ∞ :=
  ⨅ total ∈ {total | g.WeighedWalk source total v}, (total : ℕ∞)

/-- No walk is lighter than the least weight. -/
theorem leastWeight_le {total : Nat} (h : g.WeighedWalk source total v) :
    g.leastWeight source v ≤ total := iInf₂_le total h

/-- What no walk falls below is at most the least weight. -/
theorem le_leastWeight {bound : ℕ∞} (h : ∀ total, g.WeighedWalk source total v → bound ≤ total) :
    bound ≤ g.leastWeight source v := le_iInf₂ h

/-- A least weight that is finite is that of a walk. -/
theorem weighedWalk_of_leastWeight {weight : Nat} (h : g.leastWeight source v = weight) :
    g.WeighedWalk source weight v := by
  by_contra hnone
  have hmore : ((weight + 1 : Nat) : ℕ∞) ≤ g.leastWeight source v := by
    apply le_leastWeight
    intro total hwalk
    have hle : weight ≤ total := Nat.cast_le.mp (h ▸ leastWeight_le hwalk)
    have hne : total ≠ weight := by
      rintro rfl
      exact hnone hwalk
    exact Nat.cast_le.mpr (by omega)
  rw [h, Nat.cast_le] at hmore
  omega

end GraphKernels.Graph
