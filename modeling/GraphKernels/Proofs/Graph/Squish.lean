import GraphKernels.Proofs.Graph.DegreeOrder

/-!
# Squished graphs

A squished graph holds the lightest arc between any two different vertices that its edges join, in rows that
ascend strictly, in both directions of reading. It is determined by which arcs the edges give, so it does
not change when they come in another order, or more than once, or, if it is undirected, the other way round.
-/

namespace GraphKernels

variable {o : BuildOptions} {edges others : List Edge} {g : Graph} {u v n : Nat} {w : UInt32}

namespace BuildOptions

/-- A list of edges gives an arc if it has that edge or, for an undirected graph, the edge the other way. -/
def Gives (o : BuildOptions) (edges : List Edge) (u v : Nat) (w : UInt32) : Prop :=
  ⟨u, v, w⟩ ∈ edges ∨ o.directed = false ∧ ⟨v, u, w⟩ ∈ edges

/-- What sources list is what the edges give. -/
theorem mem_arcList {e : Edge} : e ∈ o.arcList edges ↔ o.Gives edges e.source e.target e.weight := by
  rw [arcList, Gives]
  cases o.directed with
  | true => simp
  | false =>
    have hflip : e ∈ edges.map Edge.flip ↔ e.flip ∈ edges :=
      List.mem_map_of_involutive Edge.flip_flip
    rw [if_neg (by simp), List.mem_append, hflip, and_iff_right rfl]
    rfl

/-- The given arcs have the endpoints of the edges. -/
theorem forall_gives_lt_iff : (∀ u v w, o.Gives edges u v w → u < n ∧ v < n) ↔
    ∀ e ∈ edges, e.source < n ∧ e.target < n := by
  constructor
  · intro h e he
    exact h e.source e.target e.weight (Or.inl he)
  · intro h u v w hgives
    rcases hgives with he | ⟨_, he⟩
    · exact h _ he
    · exact (h _ he).symm

/-- Another list of the same edges: in another order, with an edge repeated or no longer repeated, and, for
an undirected graph, with an edge the other way round. -/
inductive Rearranged (o : BuildOptions) (edges : List Edge) : List Edge → Prop
  | refl : Rearranged o edges edges
  | perm {front back : List Edge} (h : Rearranged o edges front) (hperm : front.Perm back) :
      Rearranged o edges back
  | again {e : Edge} {rest : List Edge} (h : Rearranged o edges rest) (he : e ∈ rest) :
      Rearranged o edges (e :: rest)
  | once {e : Edge} {rest : List Edge} (h : Rearranged o edges (e :: rest)) (he : e ∈ rest) :
      Rearranged o edges rest
  | flip {e : Edge} {rest : List Edge} (h : Rearranged o edges (e :: rest))
      (hundirected : o.directed = false) : Rearranged o edges (e.flip :: rest)

/-- A list gives what its members give. -/
theorem gives_congr (h : ∀ e, e ∈ others ↔ e ∈ edges) : o.Gives others u v w ↔ o.Gives edges u v w := by
  rw [Gives, Gives, h, h]

/-- An undirected graph is given the same arcs when an edge is turned round. -/
theorem gives_cons_flip (hundirected : o.directed = false) (e : Edge) (rest : List Edge) :
    o.Gives (e.flip :: rest) u v w ↔ o.Gives (e :: rest) u v w := by
  have hflip (x y : Nat) : (⟨x, y, w⟩ : Edge) = e.flip ↔ ⟨y, x, w⟩ = e :=
    Edge.flip_injective.eq_iff (a := ⟨y, x, w⟩)
  simp only [Gives, hundirected, true_and, List.mem_cons, hflip]
  tauto

/-- Lists of the same edges give the same arcs. -/
theorem Rearranged.gives_iff (h : o.Rearranged edges others) (u v : Nat) (w : UInt32) :
    o.Gives others u v w ↔ o.Gives edges u v w := by
  have hcons {e : Edge} {rest : List Edge} (he : e ∈ rest) (f : Edge) : f ∈ e :: rest ↔ f ∈ rest := by
    rw [List.mem_cons, or_iff_right_iff_imp]
    exact fun heq => heq ▸ he
  induction h with
  | refl => exact Iff.rfl
  | perm _ hperm ih => exact (gives_congr fun _ => hperm.mem_iff.symm).trans ih
  | again _ he ih => exact (gives_congr (hcons he)).trans ih
  | once _ he ih => exact (gives_congr (hcons he)).symm.trans ih
  | flip _ hundirected ih => exact (gives_cons_flip hundirected _ _).trans ih

/-- The vertex count is the given one, or the least one that covers the endpoints. -/
theorem vertexCount_eq (h : o.vertexCount edges = .ok n) : n = o.numVertices.getD (endpointBound edges) :=
  (vertexCount_eq_ok_iff.mp h).1

/-- The vertex count depends on the endpoints of the given arcs only. -/
theorem vertexCount_congr (h : ∀ u v w, o.Gives others u v w ↔ o.Gives edges u v w) :
    o.vertexCount others = o.vertexCount edges := by
  have hle (n : Nat) : endpointBound others ≤ n ↔ endpointBound edges ≤ n := by
    rw [endpointBound_le_iff, endpointBound_le_iff, ← forall_gives_lt_iff (o := o),
      ← forall_gives_lt_iff (o := o)]
    simp only [h]
  have hbound : endpointBound others = endpointBound edges :=
    Nat.le_antisymm ((hle _).mpr (Nat.le_refl _)) ((hle _).mp (Nat.le_refl _))
  rw [vertexCount, vertexCount, hbound]

end BuildOptions

/-- A squished row has one arc to each other vertex that the edges give an arc to, the lightest of them. -/
theorem mem_squishRow_arcList {a : Arc} : a ∈ squishRow u (arcsFrom u (o.arcList edges)) ↔
    a.target ≠ u ∧ IsLeast {w | o.Gives edges u a.target w} a.weight := by
  have hgives (b : Arc) : b ∈ arcsFrom u (o.arcList edges) ↔ o.Gives edges u b.target b.weight := by
    rw [mem_arcsFrom, BuildOptions.mem_arcList]
    rfl
  rw [mem_squishRow, and_right_comm, and_comm (a := _ ∧ _)]
  apply and_congr_right'
  rw [hgives]
  apply and_congr_right'
  constructor
  · intro h w hw
    exact h ⟨a.target, w⟩ ((hgives _).mpr hw) rfl
  · intro h b hb htarget
    exact h (htarget ▸ (hgives b).mp hb)

/-- The rows of a squished graph and its rows of flipped arcs. All ascend strictly; a vertex lists the other
vertices that the edges give an arc to, each with the least weight. -/
structure SquishedRows (o : BuildOptions) (edges : List Edge) (n : Nat) (rows columns : Nat → List Arc) :
    Prop where
  ascends : ∀ u < n, ((rows u).map Arc.target).Pairwise (· < ·)
  targets : ∀ u < n, ∀ v, v ∈ (rows u).map Arc.target ↔ v ≠ u ∧ ∃ w, o.Gives edges u v w
  lightest : ∀ u < n, ∀ a ∈ rows u, IsLeast {w | o.Gives edges u a.target w} a.weight
  columns_ascend : ∀ v < n, ((columns v).map Arc.target).Pairwise (· < ·)
  columns_flipped : ∀ v < n, ∀ u w, ⟨u, w⟩ ∈ columns v ↔ u < n ∧ ⟨v, w⟩ ∈ rows u

namespace Graph

/-- What a squished graph is made of. -/
theorem build_squish_spec (hsquish : o.squish = true) (hbuild : build o edges = .ok g) :
    ∃ n, o.vertexCount edges = .ok n ∧ g = ofRows n o.directed (.ofEdges n (o.arcList edges) true) := by
  rw [← hsquish]
  exact build_spec hbuild

/-- When the rows ascend strictly, so do those that in-neighbors are read from. -/
theorem incoming_pairwise {forward : Rows} (directed : Bool) (h : forward.Compressed n)
    (hrows : ∀ u < n, (forward.row u).Pairwise fun a b => a.target < b.target) (hv : v < n) :
    ((ofRows n directed forward).incoming.row v).Pairwise fun a b => a.target < b.target := by
  cases directed with
  | true => exact h.row_transpose_pairwise hv hrows
  | false => exact hrows v hv

/-- The rows of a squished graph. -/
theorem squishedRows_build (hsquish : o.squish = true) (hbuild : build o edges = .ok g) :
    SquishedRows o edges g.numVertices g.forward.row g.incoming.row := by
  have hwell := wellFormed_build hbuild
  have hmirrored := mirrored_build hbuild
  obtain ⟨n, _, rfl⟩ := build_squish_spec hsquish hbuild
  have hpairwise (u : Nat) (hu : u < n) :
      ((Rows.ofEdges n (o.arcList edges) true).row u).Pairwise fun a b => a.target < b.target := by
    rw [Rows.row_squished _ hu]
    exact squishRow_pairwise _ _
  exact {
    ascends := fun u hu => List.pairwise_map.mpr (hpairwise u hu)
    targets := by
      intro u hu v
      rw [ne_comm]
      apply (hasArc_ofEdges o.directed hu).trans
      simp only [BuildOptions.mem_arcList]
    lightest := by
      intro u hu a ha
      have hkept : a ∈ squishRow u (arcsFrom u (o.arcList edges)) := Rows.row_squished _ hu ▸ ha
      exact (mem_squishRow_arcList.mp hkept).2
    columns_ascend := fun v hv =>
      List.pairwise_map.mpr (incoming_pairwise o.directed hwell.forward hpairwise hv)
    columns_flipped := by
      intro v hv u w
      rw [hmirrored.mem_row_iff hwell, iff_and_self]
      intro hmem
      exact hwell.lt_of_hasArc (hasArc_iff.mpr ⟨w, hmem⟩) }

/-- A squished graph is determined by which arcs the edges give. -/
theorem build_congr (hsquish : o.squish = true) (hbuild : build o edges = .ok g)
    (h : ∀ u v w, o.Gives others u v w ↔ o.Gives edges u v w) : build o others = .ok g := by
  obtain ⟨n, hn, rfl⟩ := build_squish_spec hsquish hbuild
  have hn' : o.vertexCount others = .ok n := (BuildOptions.vertexCount_congr h).trans hn
  have hrows : Rows.ofEdges n (o.arcList others) true = .ofEdges n (o.arcList edges) true := by
    apply (Rows.compressed_ofEdges true fun _ he => (BuildOptions.arcList_lt hn' he).2).ext_row
      (Rows.compressed_ofEdges true fun _ he => (BuildOptions.arcList_lt hn he).2)
    intro u hu
    rw [Rows.row_squished _ hu, Rows.row_squished _ hu]
    apply squishRow_congr
    intro a
    rw [mem_arcsFrom, mem_arcsFrom, BuildOptions.mem_arcList, BuildOptions.mem_arcList, h]
  rw [build, hn', ok_bind, hsquish, hrows]
  rfl

/-- Every vertex of a squished graph lists exactly the other vertices that the edges give an arc to, strictly
ascending, each with the least weight, and its in-arcs are those arcs flipped, strictly ascending as well. No
vertex is out of order, the arcs of an undirected graph go both ways with one weight, and other lists of the
same edges build the same graph. -/
theorem build_squished (hsquish : o.squish = true) (hbuild : build o edges = .ok g) :
    g.numVertices = o.numVertices.getD (endpointBound edges) ∧ g.directed = o.directed ∧
      (∃ rows columns, SquishedRows o edges g.numVertices rows columns ∧
        (∀ u < g.numVertices, g.outArcs u = .ok (rows u) ∧ g.inArcs u = .ok (columns u)) ∧
        (g.directed = false → ∀ u < g.numVertices, ∀ v < g.numVertices, ∀ w,
          ⟨v, w⟩ ∈ rows u ↔ ⟨u, w⟩ ∈ rows v)) ∧
      g.firstUnsorted? = .ok none ∧ ∀ others, o.Rearranged edges others → build o others = .ok g := by
  have hwell := wellFormed_build hbuild
  have hsquished := squishedRows_build hsquish hbuild
  refine ⟨?_, ?_, ⟨_, _, hsquished, ?_, ?_⟩, ?_, ?_⟩
  · obtain ⟨n, hn, rfl⟩ := build_spec hbuild
    exact BuildOptions.vertexCount_eq hn
  · obtain ⟨n, _, rfl⟩ := build_spec hbuild
    exact directed_ofRows n o.directed _
  · exact fun u hu => ⟨hwell.outArcs_eq hu, hwell.inArcs_eq hu⟩
  · intro hundirected u hu v hv w
    have hflipped := hsquished.columns_flipped v hv u w
    rw [incoming_eq_forward hundirected, and_iff_right hu] at hflipped
    exact hflipped.symm
  · exact firstUnsorted?_eq_none hwell fun u hu => ⟨hsquished.ascends u hu, fun hloop =>
      ((hsquished.targets u hu u).mp hloop).1 rfl⟩
  · exact fun others h => build_congr hsquish hbuild h.gives_iff

/-- An undirected graph with a loop, three edges between two vertices, the lightest of them the other way
round, and a vertex without edges. A list in another order, with one edge turned and one repeated, builds the
same graph. -/
theorem build_squished_turned :
    ∃ g, build { directed := false, squish := true, numVertices := some 4 }
        [⟨0, 1, 5⟩, ⟨1, 0, 3⟩, ⟨2, 2, 1⟩, ⟨0, 1, 9⟩, ⟨1, 2, 4⟩] = .ok g ∧
      g.forward = ⟨#[0, 1, 3, 4, 4], #[1, 0, 2, 1], #[3, 3, 4, 4]⟩ ∧
      (g.numVertices = 4 ∧ g.directed = false ∧
        (∃ rows columns, SquishedRows { directed := false, squish := true, numVertices := some 4 }
            [⟨0, 1, 5⟩, ⟨1, 0, 3⟩, ⟨2, 2, 1⟩, ⟨0, 1, 9⟩, ⟨1, 2, 4⟩] g.numVertices rows columns ∧
          (∀ u < g.numVertices, g.outArcs u = .ok (rows u) ∧ g.inArcs u = .ok (columns u)) ∧
          (g.directed = false → ∀ u < g.numVertices, ∀ v < g.numVertices, ∀ w,
            ⟨v, w⟩ ∈ rows u ↔ ⟨u, w⟩ ∈ rows v)) ∧
        g.firstUnsorted? = .ok none) ∧
      build { directed := false, squish := true, numVertices := some 4 }
        [⟨0, 1, 5⟩, ⟨2, 1, 4⟩, ⟨0, 1, 5⟩, ⟨1, 0, 3⟩, ⟨2, 2, 1⟩, ⟨0, 1, 9⟩] = .ok g := by
  obtain ⟨g, hbuild, hrows⟩ : ∃ g, build { directed := false, squish := true, numVertices := some 4 }
      [⟨0, 1, 5⟩, ⟨1, 0, 3⟩, ⟨2, 2, 1⟩, ⟨0, 1, 9⟩, ⟨1, 2, 4⟩] = .ok g ∧
      g.forward = ⟨#[0, 1, 3, 4, 4], #[1, 0, 2, 1], #[3, 3, 4, 4]⟩ := ⟨_, rfl, by cbv⟩
  obtain ⟨hcount, hdirected, hsquished, horder, hothers⟩ := build_squished rfl hbuild
  refine ⟨g, hbuild, hrows, ⟨hcount, hdirected, hsquished, horder⟩, hothers _ (.again ?_ (by decide))⟩
  have hfirst : [⟨0, 1, 5⟩, ⟨1, 0, 3⟩, ⟨2, 2, 1⟩, ⟨0, 1, 9⟩, ⟨1, 2, 4⟩].Perm
      [⟨1, 2, 4⟩, ⟨0, 1, 5⟩, ⟨1, 0, 3⟩, ⟨2, 2, 1⟩, (⟨0, 1, 9⟩ : Edge)] := by decide
  exact (BuildOptions.Rearranged.refl.perm hfirst).flip rfl

example : (build { squish := true } [⟨0, 2, 9⟩, ⟨0, 1, 1⟩, ⟨1, 2, 1⟩, ⟨0, 0, 1⟩, ⟨0, 2, 3⟩]).toOption.map
    (fun g => (g.forward, g.reverse)) =
      some (⟨#[0, 2, 3, 3], #[1, 2, 2], #[1, 3, 1]⟩, some ⟨#[0, 0, 1, 3], #[0, 0, 1], #[1, 3, 1]⟩) := by
  cbv

end Graph

end GraphKernels
