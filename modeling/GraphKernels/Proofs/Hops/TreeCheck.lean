import GraphKernels.Hops.TreeCheck
import GraphKernels.Proofs.Hops.Depths
import GraphKernels.Proofs.Hops.Tree
import GraphKernels.Proofs.Verdict

/-!
# Which trees of hop paths are accepted

The check looks at one vertex after the other: its parent has to lie one level up in the depths of a search
of its own. Nobody follows the parents to the source. That is not needed, because a parent one level up
leads to the source in one step less; and the other way round, a vertex that leads to the source in as many
steps as it is deep has a parent one level up, because no parent that is a source of an arc can lie higher.
-/

namespace GraphKernels

variable {g : Graph} {source u v p d k : Nat} {depths parents : Array (Option Nat)} {parent : Option Nat}

/-! ### One vertex -/

/-- A vertex without a parent is not reachable, the source is its own parent, and any other parent is a
listed source one level up. -/
def Graph.ParentFits (g : Graph) (source u : Nat) : Option Nat → Prop
  | none => ¬ g.Reachable source u
  | some p => g.Reachable source u ∧ if u = source then p = source else
      p ∈ g.sources u ∧ ∃ d, g.AtDepth source d p ∧ g.AtDepth source (d + 1) u

/-- The depth of any number is known, if it is a vertex with a depth. -/
theorem IsDepths.join_eq_some_iff (h : IsDepths g source depths) :
    depths[v]?.join = some d ↔ g.AtDepth source d v := by
  rw [← h.getD_eq_some_iff, Array.getD_eq_getD_getElem?]
  cases depths[v]? <;> rfl

/-- A vertex without a depth cannot be reached. -/
theorem IsDepths.not_reachable (h : IsDepths g source depths) (hu : depths[u]? = some none) :
    ¬ g.Reachable source u := by
  intro hreachable
  obtain ⟨d, hd⟩ := Graph.reachable_iff_exists_atDepth.mp hreachable
  rw [← h.join_eq_some_iff, hu] at hd
  cases hd

/-- The parent of a vertex is turned down exactly when it does not fit. -/
theorem parentFlaw?_yields (hwell : g.WellFormed) (hdepths : IsDepths g source depths)
    (hu : u < g.numVertices) {depth : Option Nat} (hdepth : depths[u]? = some depth) (parent : Option Nat) :
    Yields (parentFlaw? g source depths u depth parent) fun flaw =>
      flaw = none ↔ g.ParentFits source u parent := by
  cases depth with
  | none =>
    have hfar := hdepths.not_reachable hdepth
    cases parent with
    | none => exact .ok (by simp [Graph.ParentFits, hfar])
    | some p => exact .ok (by simp [Graph.ParentFits, hfar])
  | some d =>
    have hd : g.AtDepth source d u := hdepths.join_eq_some_iff.mp (by rw [hdepth]; rfl)
    have hreachable : g.Reachable source u := Graph.reachable_iff_exists_atDepth.mpr ⟨d, hd⟩
    cases parent with
    | none => exact .ok (by simp [Graph.ParentFits, hreachable])
    | some p =>
      rw [parentFlaw?, Graph.ParentFits]
      by_cases hsource : u = source
      · rw [if_pos hsource, if_pos hsource]
        exact .ok (by simp [hreachable])
      · have hpositive : d ≠ 0 := fun hzero => hsource (Graph.AtDepth.zero_iff.mp (hzero ▸ hd))
        have habove : (depths[p]?.join == some (d - 1)) = true ↔
            ∃ k, g.AtDepth source k p ∧ g.AtDepth source (k + 1) u := by
          rw [beq_iff_eq, hdepths.join_eq_some_iff]
          constructor
          · intro hp
            exact ⟨d - 1, hp, by rwa [Nat.sub_add_cancel (by omega)]⟩
          · intro hsome
            obtain ⟨k, hp, hk⟩ := hsome
            rwa [← hk.unique hd, Nat.add_sub_cancel]
        rw [if_neg hsource, if_neg hsource, hwell.inNeighbors_eq hu, ok_bind, if_neg hpositive,
          and_iff_right hreachable, ← List.contains_iff_mem, ← habove, ← Bool.and_eq_true]
        by_cases hfits : ((g.sources u).contains p && depths[p]?.join == some (d - 1)) = true
        · rw [if_pos hfits]
          exact .ok (iff_of_true rfl hfits)
        · rw [if_neg hfits]
          exact .ok (iff_of_false (Option.some_ne_none _) hfits)

/-! ### All vertices -/

/-- Nothing is wrong with some parents exactly when all of them fit. -/
theorem parentFlaws_yields (hwell : g.WellFormed) (hdepths : IsDepths g source depths)
    (hsize : parents.size = g.numVertices) :
    Yields ((depths.toList.zip parents.toList).zipIdx.filterMapM fun ((depth, parent), u) =>
      parentFlaw? g source depths u depth parent) fun flaws =>
        flaws = [] ↔ ∀ v parent, parents[v]? = some parent → g.ParentFits source v parent := by
  have hloop : Yields ((depths.toList.zip parents.toList).zipIdx.filterMapM fun ((depth, parent), u) =>
      parentFlaw? g source depths u depth parent) fun flaws =>
        flaws = [] ↔ ∀ item ∈ (depths.toList.zip parents.toList).zipIdx,
          g.ParentFits source item.2 item.1.2 := by
    apply Yields.filterMapM
    rintro ⟨⟨depth, parent⟩, u⟩ hitem
    obtain ⟨hdepth, hparent⟩ := mem_zipIdx_zip.mp hitem
    rw [Array.getElem?_toList] at hdepth hparent
    obtain ⟨hu, _⟩ := Array.getElem?_eq_some_iff.mp hparent
    exact parentFlaw?_yields hwell hdepths (hsize ▸ hu) hdepth parent
  apply hloop.mono
  intro flaws hflaws
  rw [hflaws]
  constructor
  · intro hfits v parent hparent
    obtain ⟨hv, _⟩ := Array.getElem?_eq_some_iff.mp hparent
    have hv' : v < depths.size := by rwa [hdepths.size_eq, ← hsize]
    exact hfits ((depths[v], parent), v) (mem_zipIdx_zip.mpr (by simp [hparent, hv']))
  · rintro hfits ⟨⟨depth, parent⟩, v⟩ hitem
    have hparent := (mem_zipIdx_zip.mp hitem).2
    exact hfits v parent (by rwa [Array.getElem?_toList] at hparent)

/-- On every well-formed graph the check decides whether all parents fit. -/
theorem Graph.checkHopTree_decides_fits (hwell : g.WellFormed) (source : Nat)
    (parents : Array (Option Nat)) :
    Decides (g.checkHopTree source parents) (parents.size = g.numVertices ∧ source < g.numVertices ∧
      ∀ v parent, parents[v]? = some parent → g.ParentFits source v parent) := by
  rw [Graph.checkHopTree]
  by_cases hsize : parents.size = g.numVertices
  · rw [if_neg (not_not_intro hsize)]
    by_cases hsource : g.numVertices ≤ source
    · rw [if_pos hsource]
      exact .reject (by omega)
    · rw [if_neg hsource]
      apply Decides.bind (depthsFrom_yields hwell (Nat.lt_of_not_le hsource))
      intro depths hdepths
      apply Decides.bind (parentFlaws_yields hwell hdepths hsize)
      intro flaws hflaws
      apply Decides.ofReasons
      rw [hflaws, and_iff_right hsize, and_iff_right (Nat.lt_of_not_le hsource)]
  · rw [if_pos hsize]
    exact .reject fun h => hsize h.1

/-! ### Trees -/

/-- Going up from parent to parent follows arcs backwards and arrives at the source after some number of
steps, and not earlier. -/
inductive LeadsUp (g : Graph) (source : Nat) (parents : Array (Option Nat)) : Nat → Nat → Prop
  | arrived : LeadsUp g source parents 0 source
  | up {k v p : Nat} (hne : v ≠ source) (hparent : parents[v]? = some (some p)) (harc : g.HasArc p v)
      (rest : LeadsUp g source parents k p) : LeadsUp g source parents (k + 1) v

/-- The source is its own parent, vertices that cannot be reached have no parent, and all others lead up to
the source in as many steps as they have hops from it. -/
structure IsShortestTree (g : Graph) (source : Nat) (parents : Array (Option Nat)) : Prop where
  size_eq : parents.size = g.numVertices
  source_lt : source < g.numVertices
  source_eq : parents[source]? = some (some source)
  unreachable : ∀ v < g.numVertices, ¬ g.Reachable source v → parents[v]? = some none
  leadsUp : ∀ v d, v ≠ source → g.AtDepth source d v → LeadsUp g source parents d v

/-- Steps up are a walk down. -/
theorem LeadsUp.walk (h : LeadsUp g source parents k v) : g.Walk source k v := by
  induction h with
  | arrived => exact .start
  | up _ _ harc _ ih => exact ih.step harc

/-- A vertex that leads up in as many steps as it is deep has a parent one level up. -/
theorem LeadsUp.exists_parent (h : LeadsUp g source parents d v) (hne : v ≠ source)
    (hv : g.AtDepth source d v) :
    ∃ p k, parents[v]? = some (some p) ∧ g.HasArc p v ∧ g.AtDepth source k p ∧
      g.AtDepth source (k + 1) v := by
  cases h with
  | arrived => exact absurd rfl hne
  | @up k _ p _ hparent harc rest =>
    have hleast (j : Nat) (hwalk : g.Walk source j p) : k ≤ j :=
      Nat.le_of_succ_le_succ (hv.2 (j + 1) (hwalk.step harc))
    exact ⟨p, k, hparent, harc, ⟨rest.walk, hleast⟩, hv⟩

/-- Parents one level up lead all the way up. -/
theorem IsHopTree.leadsUp (h : IsHopTree g source parents) (hv : g.AtDepth source d v) :
    LeadsUp g source parents d v := by
  induction d generalizing v with
  | zero => exact Graph.AtDepth.zero_iff.mp hv ▸ .arrived
  | succ d ih =>
    have hne : v ≠ source := fun heq => Nat.succ_ne_zero d (hv.unique (Graph.AtDepth.zero_iff.mpr heq))
    have hreachable : g.Reachable source v := Graph.reachable_iff_exists_atDepth.mpr ⟨_, hv⟩
    obtain ⟨p, k, hparent, harc, hp, hk⟩ := h.parent v hne hreachable
    obtain rfl : k = d := Nat.succ.inj (hk.unique hv)
    exact .up hne hparent harc (ih hp)

/-- A tree in which every parent is one level up is one that leads up to the source from everywhere, and
the other way round. -/
theorem isHopTree_iff : IsHopTree g source parents ↔ IsShortestTree g source parents := by
  constructor
  · intro h
    obtain ⟨hsource, _⟩ := Array.getElem?_eq_some_iff.mp h.source_eq
    exact {
      size_eq := h.size_eq
      source_lt := h.size_eq ▸ hsource
      source_eq := h.source_eq
      unreachable := fun v hv hfar => (h.none_iff v hv).mpr hfar
      leadsUp := fun v d _ hd => h.leadsUp hd }
  · intro h
    have hparent (v : Nat) (hne : v ≠ source) (hreachable : g.Reachable source v) :
        ∃ p k, parents[v]? = some (some p) ∧ g.HasArc p v ∧ g.AtDepth source k p ∧
          g.AtDepth source (k + 1) v := by
      obtain ⟨d, hd⟩ := Graph.reachable_iff_exists_atDepth.mp hreachable
      exact (h.leadsUp v d hne hd).exists_parent hne hd
    exact {
      size_eq := h.size_eq
      source_eq := h.source_eq
      none_iff := fun v hv => by
        refine ⟨fun hnone hreachable => ?_, h.unreachable v hv⟩
        by_cases hne : v = source
        · rw [hne, h.source_eq] at hnone
          cases hnone
        · obtain ⟨p, _, hsome, _⟩ := hparent v hne hreachable
          rw [hnone] at hsome
          cases hsome
      parent := hparent }

/-- The parent of a vertex in a tree of shortest hop paths fits. -/
theorem IsHopTree.parentFits (h : IsHopTree g source parents) (hwell : g.WellFormed)
    (hmirrored : g.Mirrored) (hparent : parents[v]? = some parent) : g.ParentFits source v parent := by
  obtain ⟨hv, _⟩ := Array.getElem?_eq_some_iff.mp hparent
  have hnone := h.none_iff v (h.size_eq ▸ hv)
  cases parent with
  | none => exact hnone.mp hparent
  | some p =>
    have hreachable : g.Reachable source v := by
      by_contra hfar
      cases (hnone.mpr hfar).symm.trans hparent
    apply And.intro hreachable
    by_cases heq : v = source
    · rw [if_pos heq]
      rw [heq, h.source_eq] at hparent
      cases hparent
      rfl
    · obtain ⟨q, d, hq, harc, hdepth⟩ := h.parent v heq hreachable
      cases hq.symm.trans hparent
      rw [if_neg heq]
      exact ⟨(hmirrored.mem_sources_iff hwell).mpr harc, d, hdepth⟩

/-- Parents that all fit are a tree of shortest hop paths. -/
theorem isHopTree_of_parentFits (hwell : g.WellFormed) (hmirrored : g.Mirrored)
    (hsize : parents.size = g.numVertices) (hsource : source < g.numVertices)
    (hfits : ∀ v parent, parents[v]? = some parent → g.ParentFits source v parent) :
    IsHopTree g source parents := by
  have hentry (v : Nat) (hv : v < g.numVertices) :
      ∃ parent, parents[v]? = some parent ∧ g.ParentFits source v parent := by
    have hsome := Array.getElem?_eq_getElem (hsize.symm ▸ hv : v < parents.size)
    exact ⟨_, hsome, hfits v _ hsome⟩
  exact {
    size_eq := hsize
    source_eq := by
      obtain ⟨parent, hsome, hfit⟩ := hentry source hsource
      cases parent with
      | none => exact absurd .refl hfit
      | some p => rw [hsome, (if_pos rfl).mp hfit.2]
    none_iff := fun v hv => by
      obtain ⟨parent, hsome, hfit⟩ := hentry v hv
      cases parent with
      | none => exact iff_of_true hsome hfit
      | some p => simp [hsome, hfit.1]
    parent := fun v hne hreachable => by
      obtain ⟨d, hd⟩ := Graph.reachable_iff_exists_atDepth.mp hreachable
      obtain ⟨parent, hsome, hfit⟩ := hentry v (hd.lt_numVertices hwell hsource)
      cases parent with
      | none => exact absurd hreachable hfit
      | some p =>
        obtain ⟨hlisted, d, hdepth⟩ := (if_neg hne).mp hfit.2
        exact ⟨p, d, hsome, (hmirrored.mem_sources_iff hwell).mp hlisted, hdepth⟩ }

/-- On every built graph the check decides, whatever it is handed, whether some parents are a tree of
shortest hop paths: whether going up from any vertex that can be reached leads along arcs to the source, in
as many steps as the vertex has hops from it, and the other vertices have no parent. -/
theorem checkHopTree_decides {o : BuildOptions} {edges : List Edge} (hbuild : Graph.build o edges = .ok g)
    (source : Nat) (parents : Array (Option Nat)) :
    Decides (g.checkHopTree source parents) (IsShortestTree g source parents) := by
  have hwell := Graph.wellFormed_build hbuild
  have hmirrored := Graph.mirrored_build hbuild
  apply (Graph.checkHopTree_decides_fits hwell source parents).congr
  rw [← isHopTree_iff]
  constructor
  · intro hall
    obtain ⟨hsize, hsource, hfits⟩ := hall
    exact isHopTree_of_parentFits hwell hmirrored hsize hsource hfits
  · intro h
    have hshortest := isHopTree_iff.mp h
    exact ⟨h.size_eq, hshortest.source_lt, fun v parent hparent => h.parentFits hwell hmirrored hparent⟩

/-- On a directed graph with a loop, parallel arcs and a vertex that cannot be reached, one of two shortest
trees is accepted. A parent two levels up is turned down, and so is one that is no vertex. -/
theorem checkHopTree_decides_diamond :
    ∃ g, Graph.build {} [⟨0, 1, 1⟩, ⟨0, 1, 2⟩, ⟨0, 2, 1⟩, ⟨1, 3, 1⟩, ⟨2, 3, 1⟩, ⟨3, 3, 1⟩, ⟨4, 3, 1⟩] = .ok g ∧
      IsShortestTree g 0 #[some 0, some 0, some 0, some 2, none] ∧
      ¬ IsShortestTree g 0 #[some 0, some 0, some 0, some 0, none] ∧
      ¬ IsShortestTree g 0 #[some 0, some 0, some 0, some 9, none] := by
  refine ⟨_, rfl, ?_⟩
  have hbuild : Graph.build {}
      [⟨0, 1, 1⟩, ⟨0, 1, 2⟩, ⟨0, 2, 1⟩, ⟨1, 3, 1⟩, ⟨2, 3, 1⟩, ⟨3, 3, 1⟩, ⟨4, 3, 1⟩] = .ok _ := rfl
  have hdecides := checkHopTree_decides hbuild 0
  exact ⟨(hdecides _).of_accepted (by decide +kernel), (hdecides _).of_rejected (by decide +kernel),
    (hdecides _).of_rejected (by decide +kernel)⟩

end GraphKernels
