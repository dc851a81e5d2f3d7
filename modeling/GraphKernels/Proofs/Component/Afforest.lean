import GraphKernels.Component.Afforest
import GraphKernels.Proofs.Component.Roots
import GraphKernels.Proofs.Graph.Links
import GraphKernels.Proofs.Random.Draw

/-!
# Sampled linking labels every component with its smallest vertex

A few rounds link the leading arcs of every vertex, and one pass links the others, except that it skips
every vertex that has a certain label at that time. That all of this ends, and only brings together what
arcs join, needs no more of the graph than compressed rows. In a mirrored graph no arc is lost, whichever
label is skipped: each of its ends either links it or is together with the skipped label, and in the second
case for both ends they are together anyway.
-/

namespace GraphKernels

open Forest

variable {g : Graph} {joined : Nat → Nat → Prop} {labels : Array Nat} {u rounds skipped : Nat}

/-- An equivalence between the vertex of a row and every vertex that the row lists, in either direction. -/
structure JoinsRows (g : Graph) (joined : Nat → Nat → Prop) : Prop where
  equivalence : Equivalence joined
  target : ∀ {u v}, g.HasArc u v → joined u v
  source : ∀ {u v}, v ∈ g.sources u → joined u v

/-- All vertices may count as joined. -/
theorem joinsRows_true (g : Graph) : JoinsRows g fun _ _ => True :=
  ⟨⟨fun _ => trivial, fun _ => trivial, fun _ _ => trivial⟩, fun _ => trivial, fun _ => trivial⟩

/-- In a mirrored graph the rows list vertices that arcs join. -/
theorem joinsRows_joined (hwell : g.WellFormed) (hmirrored : g.Mirrored) : JoinsRows g g.Joined where
  equivalence := g.joined_equivalence
  target harc := harc.joined
  source hv := g.joined_equivalence.symm ((hmirrored.mem_sources_iff hwell).mp hv).joined

/-- A round links every vertex with the target of one of its arcs. -/
theorem linkRound_yields (hwell : g.WellFormed) (hjoins : JoinsRows g joined)
    (h : Sound g.numVertices joined labels) (round : Nat) :
    Yields (linkRound g labels round) fun next =>
      Grows g.numVertices joined labels next ∧
        ∀ u < g.numVertices, ∀ v, (g.targets u)[round]? = some v → Together next u v := by
  rw [linkRound]
  apply Yields.bind (Yields.foldlM_forall (Grows g.numVertices joined labels)
    (fun u next => ∀ v, (g.targets u)[round]? = some v → Together next u v) (.refl h) ?_)
  · intro next hnext
    obtain ⟨hgrows, hlinked⟩ := hnext
    apply (compress_yields hjoins.equivalence hgrows.sound).mono
    intro last hlast
    obtain ⟨hgrows', _⟩ := hlast
    refine ⟨hgrows.trans hgrows', fun u hu v hv => ?_⟩
    exact hgrows'.keeps u v (hlinked u (List.mem_range.mpr hu) v hv)
  · intro u hu next hgrows
    have hu : u < g.numVertices := List.mem_range.mp hu
    have hread : g.outNeighbor? u round = .ok (g.targets u)[round]? := hwell.forward.neighbor?_row hu round
    rw [hread, ok_bind]
    cases htarget : (g.targets u)[round]? with
    | none => exact .ok ⟨hgrows, fun v hv => by simp at hv, fun _ h => h⟩
    | some v =>
      have harc : g.HasArc u v := List.mem_of_getElem? htarget
      apply (link_yields hjoins.equivalence hgrows.sound hu (hwell.lt_of_hasArc' harc) (hjoins.target harc)).mono
      intro last hlast
      obtain ⟨hgrows', htogether⟩ := hlast
      refine ⟨hgrows.trans hgrows', fun x hx => Option.some.inj hx ▸ htogether, fun w hw x hx => ?_⟩
      exact hgrows'.keeps w x (hw x hx)

/-- Some rounds link every vertex with its leading targets. -/
theorem rounds_yield (hwell : g.WellFormed) (hjoins : JoinsRows g joined) (rounds : Nat) :
    Yields ((List.range rounds).foldlM (linkRound g) (singletons g.numVertices)) fun labels =>
      Sound g.numVertices joined labels ∧
        ∀ u < g.numVertices, ∀ v ∈ (g.targets u).take rounds, Together labels u v := by
  have hloop : Yields ((List.range rounds).foldlM (linkRound g) (singletons g.numVertices)) fun labels =>
      Sound g.numVertices joined labels ∧ ∀ round ∈ List.range rounds, ∀ u < g.numVertices, ∀ v,
        (g.targets u)[round]? = some v → Together labels u v := by
    apply Yields.foldlM_forall (Sound g.numVertices joined) fun round labels =>
      ∀ u < g.numVertices, ∀ v, (g.targets u)[round]? = some v → Together labels u v
    · exact sound_singletons _ hjoins.equivalence
    · intro round _ labels hsound
      apply (linkRound_yields hwell hjoins hsound round).mono
      intro next hnext
      obtain ⟨hgrows, hlinked⟩ := hnext
      exact ⟨hgrows.sound, hlinked, fun _ h u hu v hv => hgrows.keeps u v (h u hu v hv)⟩
  apply hloop.mono
  intro labels hlabels
  refine ⟨hlabels.1, fun u hu v hv => ?_⟩
  obtain ⟨round, hround, hv⟩ := List.mem_take_iff_getElem.mp hv
  rw [Nat.lt_min] at hround
  exact hlabels.2 round (List.mem_range.mpr hround.1) u hu v (List.getElem?_eq_some_iff.mpr ⟨hround.2, hv⟩)

/-- Some label is found. -/
theorem sampleLabel_yields (p : ComponentParameters) (hn : 0 < labels.size) :
    Yields (sampleLabel labels p) fun _ => True := by
  have hvertices := (Random.always_drawMany (Random.always_longBelow hn) p.numSamples (.ofSeed p.seed)).2
  rw [sampleLabel]
  generalize (Random.drawMany p.numSamples (Random.longBelow labels.size)).run (.ofSeed p.seed) = drawn at *
  have hread : drawn.1.toList.mapM (readAt labels) = .ok (drawn.1.toList.map (labels.getD · 0)) :=
    mapM_eq_map fun v hv => readAt_eq_getD 0 (hvertices v (Array.mem_toList_iff.mp hv))
  change Yields (do
    let sampled ← drawn.1.toList.mapM (readAt labels)
    return mostFrequent labels.size sampled) _
  rw [hread]
  exact .ok trivial

/-- The arcs of a vertex that no round links are linked, or the vertex is together with the skipped label. -/
def Covered (g : Graph) (rounds skipped : Nat) (labels : Array Nat) (u : Nat) : Prop :=
  Together labels u skipped ∨ (∀ v ∈ (g.targets u).drop rounds, Together labels u v) ∧
    (g.directed = true → ∀ v ∈ g.sources u, Together labels u v)

/-- Vertices stay covered as a forest grows. -/
theorem Covered.keep {n : Nat} {next : Array Nat} (h : Covered g rounds skipped labels u)
    (hgrows : Grows n joined labels next) : Covered g rounds skipped next u := by
  rcases h with hskip | ⟨hout, hin⟩
  · exact Or.inl (hgrows.keeps u skipped hskip)
  · exact Or.inr ⟨fun v hv => hgrows.keeps u v (hout v hv),
      fun hdirected v hv => hgrows.keeps u v (hin hdirected v hv)⟩

/-- The pass covers every vertex that it comes to. -/
theorem linkRest_yields (hwell : g.WellFormed) (hjoins : JoinsRows g joined)
    (h : Sound g.numVertices joined labels) (hu : u < g.numVertices) :
    Yields (linkRest g rounds skipped labels u) fun next =>
      Grows g.numVertices joined labels next ∧ Covered g rounds skipped next u := by
  rw [linkRest, h.readAt_eq hu, ok_bind]
  by_cases hskipped : parent labels u = skipped
  · rw [if_pos hskipped]
    exact .ok ⟨.refl h, Or.inl (.of_parent_eq hskipped)⟩
  · have htargets (v : Nat) (hv : v ∈ (g.targets u).drop rounds) :
        v < g.numVertices ∧ joined u v := by
      have harc : g.HasArc u v := List.mem_of_mem_drop hv
      exact ⟨hwell.lt_of_hasArc' harc, hjoins.target harc⟩
    have hsources (v : Nat) (hv : v ∈ g.sources u) : v < g.numVertices ∧ joined u v :=
      ⟨hwell.source_lt hv, hjoins.source hv⟩
    simp only [if_neg hskipped, hwell.outNeighbors_eq hu, ok_bind]
    apply (foldlM_link_yields hjoins.equivalence h hu htargets).bind
    intro next hnext
    obtain ⟨hgrows, hout⟩ := hnext
    cases hdirected : g.directed with
    | false =>
      refine .ok ⟨hgrows, Or.inr ⟨hout, fun htrue => ?_⟩⟩
      rw [hdirected] at htrue
      cases htrue
    | true =>
      rw [if_pos rfl, hwell.inNeighbors_eq hu, ok_bind]
      apply (foldlM_link_yields hjoins.equivalence hgrows.sound hu hsources).mono
      intro last hlast
      obtain ⟨hgrows', hin⟩ := hlast
      exact ⟨hgrows.trans hgrows', Or.inr ⟨fun v hv => hgrows'.keeps u v (hout v hv), fun _ => hin⟩⟩

/-- Once every vertex has been through the pass, the ends of every arc are together. -/
theorem together_of_hasArc {v : Nat} (hwell : g.WellFormed) (hmirrored : g.Mirrored)
    (hrounds : ∀ u < g.numVertices, ∀ v ∈ (g.targets u).take rounds, Together labels u v)
    (hrest : ∀ u < g.numVertices, Covered g rounds skipped labels u)
    (harc : g.HasArc u v) : Together labels u v := by
  have hlinked (x y : Nat) (hxy : g.HasArc x y)
      (hdrop : ∀ v ∈ (g.targets x).drop rounds, Together labels x v) : Together labels x y := by
    have hy : y ∈ (g.targets x).take rounds ++ (g.targets x).drop rounds := by
      rw [List.take_append_drop]
      exact hxy
    rcases List.mem_append.mp hy with hy | hy
    · exact hrounds x (hwell.lt_of_hasArc hxy) y hy
    · exact hdrop y hy
  have hu := hwell.lt_of_hasArc harc
  have hv := hwell.lt_of_hasArc' harc
  rcases hrest u hu with hskip | ⟨hout, _⟩
  · rcases hrest v hv with hskip' | ⟨hout, hin⟩
    · exact hskip.trans hskip'.symm
    · cases hdirected : g.directed with
      | false => exact (hlinked v u (hmirrored.hasArc_symm hwell hdirected harc) hout).symm
      | true => exact (hin hdirected u ((hmirrored.mem_sources_iff hwell).mpr harc)).symm
  · exact hlinked u v harc hout

/-- Sampled linking ends with a root as the label of every vertex. The leading arcs of every vertex are
linked, and every vertex is covered. -/
theorem linkComponents_grows (p : ComponentParameters) (hwell : g.WellFormed) (hjoins : JoinsRows g joined)
    (hn : 0 < g.numVertices) :
    Yields (g.linkComponents p) fun (labels, skipped, _) => Sound g.numVertices joined labels ∧
      (∀ v, parent labels (parent labels v) = parent labels v) ∧
      (∀ u < g.numVertices, ∀ v ∈ (g.targets u).take p.neighborRounds, Together labels u v) ∧
      ∀ u < g.numVertices, Covered g p.neighborRounds skipped labels u := by
  rw [Graph.linkComponents]
  apply (rounds_yield hwell hjoins p.neighborRounds).bind
  intro labels hlabels
  obtain ⟨hsound, hrounds⟩ := hlabels
  apply (sampleLabel_yields p (hsound.size_eq ▸ hn)).bind
  intro (skipped, count) _
  have hpass : Yields (g.vertices.foldlM (linkRest g p.neighborRounds skipped) labels) fun next =>
      Grows g.numVertices joined labels next ∧
        ∀ u ∈ g.vertices, Covered g p.neighborRounds skipped next u := by
    apply Yields.foldlM_forall (Grows g.numVertices joined labels) fun u next =>
      Covered g p.neighborRounds skipped next u
    · exact .refl hsound
    · intro u hu next hgrows
      apply (linkRest_yields hwell hjoins hgrows.sound (List.mem_range.mp hu)).mono
      intro last hlast
      obtain ⟨hgrows', hrest⟩ := hlast
      exact ⟨hgrows.trans hgrows', hrest, fun w hw => hw.keep hgrows'⟩
  apply hpass.bind
  intro next hnext
  obtain ⟨hgrows, hrest⟩ := hnext
  apply (compress_yields hjoins.equivalence hgrows.sound).bind
  intro last hlast
  obtain ⟨hgrows', hroots⟩ := hlast
  exact .ok ⟨hgrows'.sound, hroots,
    fun u hu v hv => (hgrows.trans hgrows').keeps u v (hrounds u hu v hv),
    fun u hu => (hrest u (List.mem_range.mpr hu)).keep hgrows'⟩

/-- In a mirrored graph the ends of every arc are in one tree then. -/
theorem linkComponents_yields (p : ComponentParameters) (hwell : g.WellFormed) (hmirrored : g.Mirrored)
    (hn : 0 < g.numVertices) :
    Yields (g.linkComponents p) fun (labels, _, _) => Sound g.numVertices g.Joined labels ∧
      (∀ v, parent labels (parent labels v) = parent labels v) ∧
        ∀ u v, g.HasArc u v → Together labels u v := by
  apply (linkComponents_grows p hwell (joinsRows_joined hwell hmirrored) hn).mono
  intro (labels, skipped, _) ⟨hsound, hroots, hrounds, hrest⟩
  exact ⟨hsound, hroots, fun u v harc => together_of_hasArc hwell hmirrored hrounds hrest harc⟩

/-- Every vertex has the smallest vertex of its component as a label. -/
structure IsLeastLabels (g : Graph) (labels : Array Nat) : Prop where
  size_eq : labels.size = g.numVertices
  entry_eq : ∀ v : Fin g.numVertices, ∃ least : Fin g.numVertices,
    labels[v.val]? = some least.val ∧ IsLeast {u | g.links.Reachable v u} least

namespace IsLeastLabels

/-- The labels are determined by the graph. -/
theorem unique {others : Array Nat} (h : IsLeastLabels g labels) (h' : IsLeastLabels g others) :
    labels = others := by
  apply eq_of_getElem?_eq h.size_eq h'.size_eq
  intro v hv
  obtain ⟨least, hentry, hleast⟩ := h.entry_eq ⟨v, hv⟩
  obtain ⟨least', hentry', hleast'⟩ := h'.entry_eq ⟨v, hv⟩
  rw [hentry, hentry', hleast.unique hleast']

/-- A forest in which the ends of every arc are together, and every label is a root, labels every vertex
with the smallest one of its component. -/
theorem ofForest (hwell : g.WellFormed) (hsound : Sound g.numVertices g.Joined labels)
    (hroots : ∀ v, parent labels (parent labels v) = parent labels v)
    (harcs : ∀ u v, g.HasArc u v → Together labels u v) : IsLeastLabels g labels where
  size_eq := hsound.size_eq
  entry_eq v := by
    have hlt := hsound.parent_lt v.isLt
    have hsize : v.val < labels.size := by
      rw [hsound.size_eq]
      exact v.isLt
    refine ⟨⟨parent labels v, hlt⟩, getElem?_eq_getD v.val hsize, ?_, ?_⟩
    · exact (Graph.joined_iff_reachable hwell v ⟨parent labels v, hlt⟩).mp (hsound.joined_parent v)
    · intro u hu
      have hjoined := (Graph.joined_iff_reachable hwell v u).mpr hu
      have htogether := eqvGen_le (Together.equivalence labels) harcs hjoined
      change parent labels v ≤ u
      rw [parent_eq_root hsound.parent_le (hroots v)]
      exact (isLeast_root hsound.parent_le v).2 htogether.symm

/-- A vertex is its own label when it is the smallest one of its component. -/
theorem getD_eq_self_iff (h : IsLeastLabels g labels) (v : Fin g.numVertices) :
    labels.getD v 0 = v ↔ IsLeast {u | g.links.Reachable v u} v := by
  obtain ⟨least, hentry, hleast⟩ := h.entry_eq v
  rw [Array.getD_eq_getD_getElem?, hentry, Option.getD_some]
  constructor
  · intro heq
    rwa [Fin.ext heq] at hleast
  · intro hself
    rw [hleast.unique hself]

/-- There are as many components as vertices that are their own label. -/
theorem countOwnLabels_eq (h : IsLeastLabels g labels) :
    countOwnLabels labels = Nat.card g.links.ConnectedComponent := by
  have hzip : labels.toList.zipIdx =
      (List.range g.numVertices).map fun v => (labels.getD v 0, v) := by
    apply List.ext_getElem
    · simp [h.size_eq]
    · intro v hv _
      have hv : v < labels.size := by simpa using hv
      simp [hv]
  have hcount : countOwnLabels labels = Nat.count (fun v => labels.getD v 0 = v) g.numVertices := by
    rw [countOwnLabels, hzip, List.countP_map, Nat.count]
    rfl
  have hown := h.getD_eq_self_iff
  rw [hcount, Nat.count_eq_card_filter_range,
    ← Nat.subtype_card (p := fun v => v < g.numVertices ∧ labels.getD v 0 = v) _ fun v => by simp]
  refine Nat.card_eq_of_bijective (fun v => g.links.connectedComponentMk ⟨v.1, v.2.1⟩) ⟨?_, ?_⟩
  · intro ⟨u, hu, huown⟩ ⟨v, hv, hvown⟩ heq
    have hreach : g.links.Reachable ⟨u, hu⟩ ⟨v, hv⟩ := SimpleGraph.ConnectedComponent.exact heq
    have hle := ((hown ⟨u, hu⟩).mp huown).2 hreach
    have hle' := ((hown ⟨v, hv⟩).mp hvown).2 hreach.symm
    exact Subtype.ext (Nat.le_antisymm hle hle')
  · intro component
    obtain ⟨v, rfl⟩ := component.exists_rep
    obtain ⟨least, _, hleast⟩ := h.entry_eq v
    have hself : IsLeast {u | g.links.Reachable least u} least :=
      ⟨.refl least, fun u hu => hleast.2 (hleast.1.trans hu)⟩
    exact ⟨⟨least, least.isLt, (hown least).mpr hself⟩, SimpleGraph.ConnectedComponent.sound hleast.1.symm⟩

end IsLeastLabels

/-- Sampled linking ends in the smallest vertices of all components and reports how many there are. -/
theorem afforest_isLeastLabels {p : ComponentParameters} (hwell : g.WellFormed) (hmirrored : g.Mirrored)
    (hsamples : 1 ≤ p.numSamples) :
    ∃ labels events, g.afforest p = .ok ⟨labels, events⟩ ∧ IsLeastLabels g labels ∧
      (0 < g.numVertices → ∃ skipping, events =
        [skipping, .componentsComplete g.numVertices (Nat.card g.links.ConnectedComponent)]) := by
  have hvalid : p.validate = .ok () := by
    rw [ComponentParameters.validate, requirePositive, if_neg (by omega)]
  by_cases hn : g.numVertices = 0
  · refine ⟨#[], [], ?_, ⟨hn.symm, fun v => absurd v.isLt (by omega)⟩, fun hpos => absurd hn (by omega)⟩
    simp only [Graph.afforest, hvalid, hn, if_true]
    rfl
  · obtain ⟨⟨labels, skipped, count⟩, hrun, hsound, hroots, harcs⟩ :=
      linkComponents_yields p hwell hmirrored (Nat.pos_of_ne_zero hn)
    have hleast := IsLeastLabels.ofForest hwell hsound hroots harcs
    have hcount := hleast.countOwnLabels_eq
    refine ⟨labels, [.componentSkipped skipped (percentOf count p.numSamples),
      .componentsComplete g.numVertices (countOwnLabels labels)], ?_, hleast,
      fun _ => ⟨.componentSkipped skipped (percentOf count p.numSamples), by rw [hcount]⟩⟩
    simp only [Graph.afforest, hvalid, hn, if_false, hrun]
    rfl

/-- On every built graph sampled linking ends, whatever its rounds, its samples and its seed are, and
always gives the same labels: the smallest vertices of all weak components, which it also counts. -/
theorem afforest_leastLabels {o : BuildOptions} {edges : List Edge}
    (hbuild : Graph.build o edges = .ok g) :
    ∃ labels, IsLeastLabels g labels ∧ ∀ p : ComponentParameters, 1 ≤ p.numSamples →
      ∃ events, g.afforest p = .ok ⟨labels, events⟩ ∧ (0 < g.numVertices → ∃ skipping, events =
        [skipping, .componentsComplete g.numVertices (Nat.card g.links.ConnectedComponent)]) := by
  have hwell := Graph.wellFormed_build hbuild
  have hmirrored := Graph.mirrored_build hbuild
  obtain ⟨labels, _, _, hleast, _⟩ := afforest_isLeastLabels (p := {}) hwell hmirrored (by decide)
  refine ⟨labels, hleast, fun p hsamples => ?_⟩
  obtain ⟨others, events, hrun, hleast', hevents⟩ := afforest_isLeastLabels hwell hmirrored hsamples
  exact ⟨events, hleast.unique hleast' ▸ hrun, hevents⟩

/-- A directed graph with three weak components, one of which no vertex reaches as a whole. -/
theorem afforest_leastLabels_directed :
    ∃ g, Graph.build { numVertices := some 6 } [⟨4, 1, 1⟩, ⟨3, 1, 1⟩, ⟨2, 5, 1⟩, ⟨5, 5, 1⟩] = .ok g ∧
      ∃ labels, IsLeastLabels g labels ∧ ∀ p : ComponentParameters, 1 ≤ p.numSamples →
        ∃ events, g.afforest p = .ok ⟨labels, events⟩ ∧ (0 < g.numVertices → ∃ skipping, events =
          [skipping, .componentsComplete g.numVertices (Nat.card g.links.ConnectedComponent)]) := by
  refine ⟨_, rfl, ?_⟩
  have hbuild : Graph.build { numVertices := some 6 }
      [⟨4, 1, 1⟩, ⟨3, 1, 1⟩, ⟨2, 5, 1⟩, ⟨5, 5, 1⟩] = .ok _ := rfl
  exact afforest_leastLabels hbuild

end GraphKernels
