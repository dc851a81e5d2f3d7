import GraphKernels.Proofs.Graph.Build

/-!
# Links

Without the directions of its arcs, and without loops and parallel arcs, a graph is a simple graph on its
vertices. Its components are the weak components of the graph.
-/

namespace GraphKernels.Graph

variable {g : Graph}

/-- The vertices, linked when there is an arc from one to the other. -/
def links (g : Graph) : SimpleGraph (Fin g.numVertices) := SimpleGraph.fromRel fun u v => g.HasArc u v

/-- Two vertices are linked when they differ and there is an arc in one direction. -/
theorem links_adj {u v : Fin g.numVertices} :
    g.links.Adj u v ↔ u ≠ v ∧ (g.HasArc u v ∨ g.HasArc v u) := Iff.rfl

/-- Whether two vertices are linked can be read off their rows. -/
instance (g : Graph) : DecidableRel g.links.Adj := fun _ _ => decidable_of_iff' _ links_adj

/-- Arcs lead from one to the other, each in either direction. -/
def Joined (g : Graph) : Nat → Nat → Prop := Relation.EqvGen g.HasArc

/-- Being joined is an equivalence. -/
theorem joined_equivalence (g : Graph) : Equivalence g.Joined := Relation.EqvGen.is_equivalence _

/-- An arc joins its ends. -/
theorem HasArc.joined {u v : Nat} (harc : g.HasArc u v) : g.Joined u v := Relation.EqvGen.rel u v harc

/-- Vertices are joined exactly when they can be reached from each other along links. -/
theorem joined_iff_reachable (hwell : g.WellFormed) (u v : Fin g.numVertices) :
    g.Joined u v ↔ g.links.Reachable u v := by
  constructor
  · -- Numbers that are no vertices are only joined to themselves.
    have hreach (x y : Nat) (h : g.Joined x y) : x = y ∨ ∃ (hx : x < g.numVertices)
        (hy : y < g.numVertices), g.links.Reachable ⟨x, hx⟩ ⟨y, hy⟩ := by
      induction h with
      | rel x y harc =>
        by_cases heq : x = y
        · exact Or.inl heq
        · have hx := hwell.lt_of_hasArc harc
          have hy := hwell.lt_of_hasArc' harc
          have hadj : g.links.Adj ⟨x, hx⟩ ⟨y, hy⟩ := ⟨by simpa using heq, Or.inl harc⟩
          exact Or.inr ⟨hx, hy, hadj.reachable⟩
      | refl x => exact Or.inl rfl
      | symm x y _ ih =>
        rcases ih with rfl | ⟨hx, hy, hreach⟩
        · exact Or.inl rfl
        · exact Or.inr ⟨hy, hx, hreach.symm⟩
      | trans x y z _ _ ih ih' =>
        rcases ih with rfl | ⟨hx, hy, hreach⟩
        · exact ih'
        · rcases ih' with rfl | ⟨_, hz, hreach'⟩
          · exact Or.inr ⟨hx, hy, hreach⟩
          · exact Or.inr ⟨hx, hz, hreach.trans hreach'⟩
    intro h
    rcases hreach u v h with heq | ⟨_, _, hreach⟩
    · exact Fin.ext heq ▸ .refl u
    · exact hreach
  · intro h
    rw [SimpleGraph.reachable_iff_reflTransGen] at h
    induction h with
    | refl => exact g.joined_equivalence.refl _
    | tail _ hadj ih =>
      rcases hadj.2 with harc | harc
      · exact g.joined_equivalence.trans ih (HasArc.joined harc)
      · exact g.joined_equivalence.trans ih (g.joined_equivalence.symm (HasArc.joined harc))

end GraphKernels.Graph
