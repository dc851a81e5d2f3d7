import GraphKernels.Proofs.Graph.Walk

/-!
# Levels

A level lists the vertices at one depth. Lists of vertices at successive depths have no vertex in common,
and where they are complete they list, one after the other, the vertices that can be reached.
-/

namespace GraphKernels

variable {g : Graph} {source d u v : Nat} {items others : List Nat} {levels : List (List Nat)}

/-- The list holds every vertex of a level once. -/
structure IsLevel (g : Graph) (source d : Nat) (items : List Nat) : Prop where
  nodup : items.Nodup
  mem_iff : ∀ v, v ∈ items ↔ g.AtDepth source d v

/-- The lists hold vertices of successive depths, each at most once. -/
def Graded (g : Graph) (source : Nat) (levels : List (List Nat)) : Prop :=
  ∀ d, (levels.getD d []).Nodup ∧ ∀ v ∈ levels.getD d [], g.AtDepth source d v

namespace Graded

/-- Levels are graded. -/
theorem ofLevels (h : ∀ d < levels.length, IsLevel g source d (levels.getD d [])) :
    Graded g source levels := by
  intro d
  by_cases hd : d < levels.length
  · exact ⟨(h d hd).nodup, fun v => ((h d hd).mem_iff v).mp⟩
  · rw [List.getD_eq_default _ _ (by omega)]
    exact ⟨List.nodup_nil, fun v hv => absurd hv List.not_mem_nil⟩

/-- One more list of vertices can follow. -/
theorem concat (h : Graded g source levels) (hnodup : items.Nodup)
    (hdepth : ∀ v ∈ items, g.AtDepth source levels.length v) : Graded g source (levels ++ [items]) := by
  intro d
  rcases Nat.lt_trichotomy d levels.length with hd | rfl | hd
  · rw [List.getD_append _ _ _ _ hd]
    exact h d
  · rw [List.getD_append_right _ _ _ _ (Nat.le_refl _), Nat.sub_self]
    exact ⟨hnodup, hdepth⟩
  · rw [List.getD_eq_default _ _ (by simp; omega)]
    exact ⟨List.nodup_nil, fun v hv => absurd hv List.not_mem_nil⟩

/-- A vertex of the lists is at some depth. -/
theorem exists_atDepth (h : Graded g source levels) (hv : v ∈ levels.flatten) :
    ∃ d < levels.length, v ∈ levels.getD d [] ∧ g.AtDepth source d v := by
  obtain ⟨items, hitems, hv⟩ := List.mem_flatten.mp hv
  obtain ⟨d, hd, rfl⟩ := List.getElem_of_mem hitems
  rw [← List.getD_eq_getElem levels [] hd] at hv
  exact ⟨d, hd, hv, (h d).2 v hv⟩

/-- The lists, one after the other, ascend by depth. -/
theorem pairwise_getElem (h : Graded g source levels) :
    levels.Pairwise fun shallow deep => ∀ u ∈ shallow, ∀ v ∈ deep,
      ∃ d k, d < k ∧ g.AtDepth source d u ∧ g.AtDepth source k v := by
  rw [List.pairwise_iff_getElem]
  intro d k hd hk hlt u hu v hv
  rw [← List.getD_eq_getElem levels [] hd] at hu
  rw [← List.getD_eq_getElem levels [] hk] at hv
  exact ⟨d, k, hlt, (h d).2 u hu, (h k).2 v hv⟩

/-- No vertex is listed twice. -/
theorem nodup_flatten (h : Graded g source levels) : levels.flatten.Nodup := by
  rw [List.nodup_flatten]
  constructor
  · intro items hitems
    obtain ⟨d, hd, rfl⟩ := List.getElem_of_mem hitems
    rw [← List.getD_eq_getElem levels [] hd]
    exact (h d).1
  · refine h.pairwise_getElem.imp fun hlt u hu hu' => ?_
    obtain ⟨d, k, hdk, hd, hk⟩ := hlt u hu u hu'
    have := hd.unique hk
    omega

/-- There are no more listed vertices than vertices. -/
theorem length_flatten_le (h : Graded g source levels) (hwell : g.WellFormed)
    (hsource : source < g.numVertices) : levels.flatten.length ≤ g.numVertices := by
  have hsubset : levels.flatten ⊆ List.range g.numVertices := by
    intro v hv
    obtain ⟨d, _, _, hdepth⟩ := h.exists_atDepth hv
    exact List.mem_range.mpr (hdepth.lt_numVertices hwell hsource)
  simpa using (h.nodup_flatten.subperm hsubset).length_le

end Graded

/-- No vertex lies below the last of complete levels. -/
theorem IsLevel.lt_length (h : IsLevel g source d (levels.getD d [])) (hu : g.AtDepth source d u) :
    d < levels.length := by
  by_contra hd
  have hmem := (h.mem_iff u).mpr hu
  rw [List.getD_eq_default _ _ (Nat.not_lt.mp hd)] at hmem
  exact List.not_mem_nil hmem

/-- Complete levels hold the vertices that can be reached. -/
theorem IsLevel.mem_flatten (h : ∀ d, IsLevel g source d (levels.getD d [])) :
    u ∈ levels.flatten ↔ g.Reachable source u := by
  have hgraded : Graded g source levels := Graded.ofLevels fun d _ => h d
  rw [Graph.reachable_iff_exists_atDepth]
  constructor
  · intro hu
    obtain ⟨d, _, _, hdepth⟩ := hgraded.exists_atDepth hu
    exact ⟨d, hdepth⟩
  · intro ⟨d, hdepth⟩
    have hd := (h d).lt_length hdepth
    have hu := ((h d).mem_iff u).mpr hdepth
    rw [List.getD_eq_getElem _ _ hd] at hu
    exact List.mem_flatten.mpr ⟨_, List.getElem_mem hd, hu⟩

/-- Complete levels hold the same vertices when they are gone through from the furthest one up. -/
theorem IsLevel.mem_flatten_reverse (h : ∀ d, IsLevel g source d (levels.getD d [])) :
    u ∈ levels.reverse.flatten ↔ g.Reachable source u := by
  rw [← IsLevel.mem_flatten h]
  simp

/-! ### Arcs that lead one level down -/

namespace Graph

/-- The second of two vertices is one level further down than the first. -/
def Descends (g : Graph) (source u v : Nat) : Prop := ∃ d, g.AtDepth source d u ∧ g.AtDepth source (d + 1) v

/-- What is one level further down than a vertex at some depth. -/
theorem AtDepth.descends_iff (h : g.AtDepth source d u) :
    g.Descends source u v ↔ g.AtDepth source (d + 1) v := by
  constructor
  · intro ⟨k, hu, hv⟩
    rwa [h.unique hu]
  · intro hv
    exact ⟨d, h, hv⟩

/-- What is one level further up than a vertex below the source. -/
theorem AtDepth.descends_to_iff (h : g.AtDepth source (d + 1) v) :
    g.Descends source u v ↔ g.AtDepth source d u := by
  constructor
  · intro ⟨k, hu, hv⟩
    rwa [Nat.succ.inj (h.unique hv)]
  · intro hu
    exact ⟨d, hu, h⟩

/-- Levels are told apart by choice, since no bound on the walks is given. -/
noncomputable instance (g : Graph) (source u : Nat) : DecidablePred (g.Descends source u) :=
  Classical.decPred _

/-- The targets of a vertex that are one level further down, once for each arc. -/
noncomputable def successors (g : Graph) (source u : Nat) : List Nat :=
  (g.targets u).filter (g.Descends source u)

/-- The successors of a vertex are its targets one level further down. -/
theorem mem_successors : v ∈ g.successors source u ↔ g.HasArc u v ∧ g.Descends source u v := by
  rw [successors, List.mem_filter, decide_eq_true_eq]
  rfl

end Graph

end GraphKernels
