import GraphKernels.Proofs.Graph.Walk

/-!
# Counting shortest routes

A route is a walk with a choice between parallel arcs: it lists the positions of its arcs. The routes of
some length between two vertices are finitely many, and their number is the sum over the arcs that they
start with, or over the arcs that they end with. A shortest route that visits a vertex is a shortest route
to that vertex and a route on from there, so the numbers of both are multiplied.
-/

namespace GraphKernels.Graph

open Finset

variable {g : Graph} {source u v t e d k : Nat} {route front back : List Nat}

/-- The targets that a vertex lists, each with the position of its arc. -/
def placedTargets (g : Graph) (u : Nat) : List (Nat × Nat) :=
  (g.targets u).zipIdx (g.forward.offsets.getD u 0)

/-- The targets of a vertex are read with their positions. -/
theorem WellFormed.positioned_eq (h : g.WellFormed) (hu : u < g.numVertices) :
    g.forward.positioned u = .ok (g.placedTargets u) := by
  have hread := readSpan_of_le (h.forward.ascends u hu) (h.forward.offset_le_size hu)
  simp only [Rows.positioned, h.forward.span_eq hu, ok_bind, hread]
  rw [placedTargets, targets, h.forward.rowTargets_eq]
  rfl

/-- Without their positions the placed targets are the targets. -/
@[simp] theorem map_fst_placedTargets (g : Graph) (u : Nat) :
    (g.placedTargets u).map Prod.fst = g.targets u := List.zipIdx_map_fst _ _

/-- A position lists one target. -/
theorem eq_of_mem_placedTargets (h : (u, e) ∈ g.placedTargets k) (h' : (v, e) ∈ g.placedTargets k) :
    u = v := by
  have hu := List.mem_zipIdx h
  have hv := List.mem_zipIdx h'
  rw [hu.2.2, hv.2.2]

/-- The arc at a position leads from one vertex to another. -/
def ArcAt (g : Graph) (e u v : Nat) : Prop := (v, e) ∈ g.placedTargets u

/-- There is an arc exactly when there is one at some position. -/
theorem hasArc_iff_exists_arcAt : g.HasArc u v ↔ ∃ e, g.ArcAt e u v := by
  rw [HasArc, ← map_fst_placedTargets, List.mem_map]
  constructor
  · intro h
    obtain ⟨⟨v, e⟩, harc, rfl⟩ := h
    exact ⟨e, harc⟩
  · intro h
    obtain ⟨e, harc⟩ := h
    exact ⟨(v, e), harc, rfl⟩

/-- The positions of the arcs of a vertex lie between its offsets. -/
theorem ArcAt.mem_span (h : g.ArcAt e u v) (hwell : g.WellFormed) :
    g.forward.offsets.getD u 0 ≤ e ∧ e < g.forward.offsets.getD (u + 1) 0 := by
  have hu := hwell.lt_of_hasArc (hasArc_iff_exists_arcAt.mpr ⟨e, h⟩)
  have hlength : (g.targets u).length = g.forward.offsets.getD (u + 1) 0 - g.forward.offsets.getD u 0 := by
    rw [targets, Rows.rowTargets, List.length_map, hwell.forward.row_length hu]
  have hplace := List.mem_zipIdx h
  omega

/-- The positions of arcs are those of the stored targets. -/
theorem ArcAt.lt_numArcs (h : g.ArcAt e u v) (hwell : g.WellFormed) : e < g.numArcs := by
  have hu := hwell.lt_of_hasArc (hasArc_iff_exists_arcAt.mpr ⟨e, h⟩)
  exact Nat.lt_of_lt_of_le (h.mem_span hwell).2 (hwell.forward.offset_le_size hu)

/-- A position belongs to one arc. -/
theorem ArcAt.unique (h : g.ArcAt e u v) (h' : g.ArcAt e k t) (hwell : g.WellFormed) : u = k ∧ v = t := by
  have hu := hwell.lt_of_hasArc (hasArc_iff_exists_arcAt.mpr ⟨e, h⟩)
  have hk := hwell.lt_of_hasArc (hasArc_iff_exists_arcAt.mpr ⟨e, h'⟩)
  have hspan := h.mem_span hwell
  have hspan' := h'.mem_span hwell
  have hsame : u = k := by
    rcases Nat.lt_trichotomy u k with hlt | heq | hlt
    · have := hwell.forward.offsets_mono (show u + 1 ≤ k from hlt) (Nat.le_of_lt hk)
      omega
    · exact heq
    · have := hwell.forward.offsets_mono (show k + 1 ≤ u from hlt) (Nat.le_of_lt hu)
      omega
  subst hsame
  exact ⟨rfl, eq_of_mem_placedTargets h h'⟩

/-- A route from one vertex to another, by the positions of its arcs. -/
inductive Route (g : Graph) : Nat → Nat → List Nat → Prop
  | nil {u : Nat} : Route g u u []
  | cons {e u v t : Nat} {rest : List Nat} (harc : g.ArcAt e u v) (hrest : Route g v t rest) :
      Route g u t (e :: rest)

/-- No route between the ends of a shortest route has fewer arcs. -/
def ShortestRoute (g : Graph) (u t : Nat) (route : List Nat) : Prop :=
  g.Route u t route ∧ ∀ other, g.Route u t other → route.length ≤ other.length

/-- A route visits a vertex when it first leads there and then on from there. -/
def Visits (g : Graph) (source t u : Nat) (route : List Nat) : Prop :=
  ∃ front back, route = front ++ back ∧ g.Route source u front ∧ g.Route u t back

/-- Routes can be joined. -/
theorem Route.append (h : g.Route source u front) (h' : g.Route u t back) :
    g.Route source t (front ++ back) := by
  induction h with
  | nil => exact h'
  | cons harc _ ih => exact .cons harc (ih h')

/-- A walk goes on along a route. -/
theorem Route.walk (h : g.Route u t route) (hwalk : g.Walk source k u) :
    g.Walk source (k + route.length) t := by
  induction h generalizing k with
  | nil => exact hwalk
  | cons harc _ ih =>
    have hnext := ih (hwalk.step (hasArc_iff_exists_arcAt.mpr ⟨_, harc⟩))
    rwa [List.length_cons, Nat.add_comm _ 1, ← Nat.add_assoc]

/-- There are walks where there are routes of the same length. -/
theorem walk_iff_exists_route : g.Walk source k t ↔ ∃ route, g.Route source t route ∧ route.length = k := by
  constructor
  · intro h
    induction h with
    | start => exact ⟨[], .nil, rfl⟩
    | step _ harc ih =>
      obtain ⟨route, hroute, hlength⟩ := ih
      obtain ⟨e, harc⟩ := hasArc_iff_exists_arcAt.mp harc
      exact ⟨route ++ [e], hroute.append (.cons harc .nil), by simp [hlength]⟩
  · intro h
    obtain ⟨route, hroute, rfl⟩ := h
    simpa using hroute.walk .start

/-- No route is shorter than its end is deep. -/
theorem AtDepth.le_length (h : g.AtDepth source d t) (hroute : g.Route source t route) :
    d ≤ route.length := h.2 _ (walk_iff_exists_route.mpr ⟨route, hroute, rfl⟩)

/-- The shortest routes to a vertex are those with as many arcs as it is deep. -/
theorem AtDepth.shortestRoute_iff (h : g.AtDepth source d t) :
    g.ShortestRoute source t route ↔ g.Route source t route ∧ route.length = d := by
  constructor
  · intro hshortest
    obtain ⟨other, hother, hlength⟩ := walk_iff_exists_route.mp h.1
    exact ⟨hshortest.1, Nat.le_antisymm (hlength ▸ hshortest.2 other hother) (h.le_length hshortest.1)⟩
  · intro ⟨hroute, hlength⟩
    exact ⟨hroute, fun other hother => hlength ▸ h.le_length hother⟩

/-! ### Numbers of routes -/

/-- The routes of some number of arcs from one vertex to another. -/
def routes (g : Graph) : Nat → Nat → Nat → Finset (List Nat)
  | 0, u, t => if u = t then {[]} else ∅
  | k + 1, u, t => (g.placedTargets u).toFinset.biUnion fun arc => (routes g k arc.1 t).image (arc.2 :: ·)

/-- The routes of some number of arcs are all of them. -/
theorem mem_routes : route ∈ g.routes k u t ↔ g.Route u t route ∧ route.length = k := by
  induction k generalizing u route with
  | zero =>
    rw [routes]
    constructor
    · intro h
      split at h
      · next heq =>
        rw [Finset.mem_singleton] at h
        subst heq h
        exact ⟨.nil, rfl⟩
      · simp at h
    · intro ⟨hroute, hlength⟩
      cases hroute with
      | nil => simp
      | cons => simp at hlength
  | succ k ih =>
    rw [routes, mem_biUnion]
    constructor
    · intro ⟨⟨v, e⟩, harc, hroute⟩
      obtain ⟨rest, hrest, rfl⟩ := mem_image.mp hroute
      obtain ⟨hrest, hlength⟩ := ih.mp hrest
      exact ⟨.cons (List.mem_toFinset.mp harc) hrest, by simp [hlength]⟩
    · intro ⟨hroute, hlength⟩
      cases hroute with
      | nil => simp at hlength
      | @cons e _ v _ rest harc hrest =>
        exact ⟨(v, e), List.mem_toFinset.mpr harc,
          mem_image_of_mem _ (ih.mpr ⟨hrest, by simpa using hlength⟩)⟩

/-- What the targets of a vertex add up to, as a sum over all vertices. -/
theorem sum_targets {M : Type} [AddCommMonoid M] (hwell : g.WellFormed) (u : Nat) (f : Nat → M) :
    ((g.targets u).map f).sum = ∑ v ∈ range g.numVertices, (g.targets u).count v • f v := by
  rw [Finset.sum_list_map_count]
  apply Finset.sum_subset
  · intro v hv
    exact mem_range.mpr (hwell.lt_of_hasArc' (List.mem_toFinset.mp hv))
  · intro v _ hv
    rw [List.count_eq_zero_of_not_mem fun hmem => hv (List.mem_toFinset.mpr hmem), zero_smul]

/-- What the sources of a vertex add up to in a mirrored graph, as a sum over all vertices. -/
theorem Mirrored.sum_sources {M : Type} [AddCommMonoid M] (h : g.Mirrored) (hwell : g.WellFormed)
    (hv : v < g.numVertices) (f : Nat → M) :
    ((g.sources v).map f).sum = ∑ u ∈ range g.numVertices, (g.targets u).count v • f u := by
  rw [Finset.sum_list_map_count]
  have hsubset : (g.sources v).toFinset ⊆ range g.numVertices := by
    intro u hu
    exact mem_range.mpr (hwell.source_lt (List.mem_toFinset.mp hu))
  rw [Finset.sum_subset hsubset fun u _ hu => by
    rw [List.count_eq_zero_of_not_mem fun hmem => hu (List.mem_toFinset.mpr hmem), zero_smul]]
  exact sum_congr rfl fun u hu => by rw [h.count_sources (mem_range.mp hu) hv]

/-- In a mirrored graph, going through the in-arcs of all vertices is going through their out-arcs. -/
theorem Mirrored.sum_comm_sources {M : Type} [AddCommMonoid M] (h : g.Mirrored) (hwell : g.WellFormed)
    (f : Nat → Nat → M) : ∑ v ∈ range g.numVertices, ((g.sources v).map (f · v)).sum =
      ∑ u ∈ range g.numVertices, ((g.targets u).map (f u)).sum :=
  calc ∑ v ∈ range g.numVertices, ((g.sources v).map (f · v)).sum
      = ∑ v ∈ range g.numVertices, ∑ u ∈ range g.numVertices, (g.targets u).count v • f u v :=
        sum_congr rfl fun v hv => h.sum_sources hwell (mem_range.mp hv) (f · v)
    _ = ∑ u ∈ range g.numVertices, ∑ v ∈ range g.numVertices, (g.targets u).count v • f u v := sum_comm
    _ = ∑ u ∈ range g.numVertices, ((g.targets u).map (f u)).sum :=
        sum_congr rfl fun u _ => (sum_targets hwell u (f u)).symm

/-- What all vertices get from their sources in a mirrored graph, as what each vertex gives, once for each
of its arcs. -/
theorem Mirrored.sum_sum_sources {M : Type} [AddCommMonoid M] (h : g.Mirrored) (hwell : g.WellFormed)
    (f : Nat → M) : ∑ v ∈ range g.numVertices, ((g.sources v).map f).sum =
      ∑ u ∈ range g.numVertices, (g.targets u).length • f u := by
  rw [h.sum_comm_sources hwell fun u _ => f u]
  exact sum_congr rfl fun u _ => by rw [List.map_const', List.sum_replicate]

/-- A vertex has one route without arcs, which leads to itself. -/
theorem card_routes_zero (g : Graph) (u t : Nat) : (g.routes 0 u t).card = if u = t then 1 else 0 := by
  rw [routes]
  split <;> rfl

/-- Routes are counted by the arcs that they start with. -/
theorem card_routes_succ (hwell : g.WellFormed) (k u t : Nat) :
    (g.routes (k + 1) u t).card =
      ∑ v ∈ range g.numVertices, (g.targets u).count v * (g.routes k v t).card := by
  have hdisjoint : (↑(g.placedTargets u).toFinset : Set (Nat × Nat)).PairwiseDisjoint
      fun arc => (g.routes k arc.1 t).image (arc.2 :: ·) := by
    intro ⟨v, e⟩ harc ⟨v', e'⟩ harc' hne
    rw [Function.onFun, Finset.disjoint_left]
    intro route hroute hroute'
    obtain ⟨rest, _, rfl⟩ := mem_image.mp hroute
    obtain ⟨rest', _, heq⟩ := mem_image.mp hroute'
    obtain ⟨rfl, _⟩ := List.cons.inj heq
    rw [mem_coe, List.mem_toFinset] at harc harc'
    exact hne (by rw [eq_of_mem_placedTargets harc harc'])
  have hnodup : (g.placedTargets u).Nodup := by
    apply List.Nodup.of_map Prod.snd
    rw [placedTargets, List.zipIdx_map_snd]
    exact List.nodup_range' ..
  calc (g.routes (k + 1) u t).card
      = ∑ arc ∈ (g.placedTargets u).toFinset, (g.routes k arc.1 t).card := by
        rw [routes, card_biUnion hdisjoint]
        exact sum_congr rfl fun _ _ => card_image_of_injective _ List.cons_injective
    _ = (((g.placedTargets u).map Prod.fst).map fun v => (g.routes k v t).card).sum := by
        rw [List.sum_toFinset _ hnodup, List.map_map]
        rfl
    _ = ∑ v ∈ range g.numVertices, (g.targets u).count v * (g.routes k v t).card := by
        rw [map_fst_placedTargets, sum_targets hwell]
        rfl

/-- Routes are counted by the arcs that they end with. -/
theorem card_routes_succ' (hwell : g.WellFormed) (hu : u < g.numVertices) (ht : t < g.numVertices)
    (k : Nat) : (g.routes (k + 1) u t).card =
      ∑ v ∈ range g.numVertices, (g.routes k u v).card * (g.targets v).count t := by
  induction k generalizing u with
  | zero =>
    rw [card_routes_succ hwell]
    simp only [card_routes_zero, mul_ite, mul_one, mul_zero, ite_mul, one_mul, zero_mul]
    rw [sum_ite_eq', sum_ite_eq, if_pos (mem_range.mpr ht), if_pos (mem_range.mpr hu)]
  | succ k ih =>
    calc (g.routes (k + 1 + 1) u t).card
        = ∑ v ∈ range g.numVertices, ∑ x ∈ range g.numVertices,
            (g.targets u).count v * ((g.routes k v x).card * (g.targets x).count t) := by
          rw [card_routes_succ hwell]
          exact sum_congr rfl fun v hv => by rw [ih (mem_range.mp hv), mul_sum]
      _ = ∑ x ∈ range g.numVertices, (g.routes (k + 1) u x).card * (g.targets x).count t := by
          rw [sum_comm]
          refine sum_congr rfl fun x _ => ?_
          rw [card_routes_succ hwell, sum_mul]
          exact sum_congr rfl fun v _ => (mul_assoc _ _ _).symm

/-- There is no route of some length from a vertex when no walk to the vertex goes on that far. -/
theorem card_routes_eq_zero (h : g.AtDepth source d u) (ht : g.AtDepth source k t) {length : Nat}
    (hshort : d + length < k) : (g.routes length u t).card = 0 := by
  rw [card_eq_zero, eq_empty_iff_forall_notMem]
  intro route hroute
  obtain ⟨hroute, hlength⟩ := mem_routes.mp hroute
  have hwalk := ht.2 _ (hroute.walk h.1)
  omega

/-! ### Shortest routes -/

/-- The number of shortest routes from one vertex to another. -/
noncomputable def shortestCount (g : Graph) (source t : Nat) : Nat :=
  {route | g.ShortestRoute source t route}.ncard

/-- The number of shortest routes from one vertex to another that visit a third one. -/
noncomputable def shortestCountThrough (g : Graph) (source t u : Nat) : Nat :=
  {route | g.ShortestRoute source t route ∧ g.Visits source t u route}.ncard

namespace AtDepth

/-- The shortest routes to a vertex are its routes of one length. -/
theorem shortestCount_eq (h : g.AtDepth source d t) :
    g.shortestCount source t = (g.routes d source t).card := by
  rw [shortestCount, ← Set.ncard_coe_finset]
  congr 1
  ext route
  rw [Set.mem_ofPred_eq, h.shortestRoute_iff, mem_coe, mem_routes]

/-- There are shortest routes to every vertex that can be reached. -/
theorem shortestCount_pos (h : g.AtDepth source d t) : 0 < g.shortestCount source t := by
  rw [h.shortestCount_eq, card_pos]
  obtain ⟨route, hroute⟩ := walk_iff_exists_route.mp h.1
  exact ⟨route, mem_routes.mpr hroute⟩

/-- A shortest route has as many arcs up to a vertex that it visits as that vertex is deep. -/
theorem front_length (hu : g.AtDepth source d u) (hroute : g.ShortestRoute source t (front ++ back))
    (hfront : g.Route source u front) (hback : g.Route u t back) : front.length = d := by
  obtain ⟨other, hother, hlength⟩ := walk_iff_exists_route.mp hu.1
  have hle := hroute.2 _ (hother.append hback)
  have hdepth := hu.le_length hfront
  rw [List.length_append, List.length_append] at hle
  omega

/-- A shortest route that visits another vertex is a shortest route to that vertex, and a route on from
there. -/
theorem shortestCountThrough_eq (hu : g.AtDepth source d u) (ht : g.AtDepth source k t) (hne : u ≠ t) :
    g.shortestCountThrough source t u = (g.routes d source u).card * (g.routes (k - d) u t).card := by
  have hset : {route | g.ShortestRoute source t route ∧ g.Visits source t u route} =
      ↑((g.routes d source u ×ˢ g.routes (k - d) u t).image fun parts => parts.1 ++ parts.2) := by
    ext route
    rw [Set.mem_ofPred_eq, mem_coe, mem_image]
    constructor
    · intro ⟨hroute, front, back, heq, hfront, hback⟩
      subst heq
      have hlength := hu.front_length hroute hfront hback
      have htotal := (ht.shortestRoute_iff.mp hroute).2
      rw [List.length_append] at htotal
      have hrest : back.length = k - d := by omega
      exact ⟨(front, back), mem_product.mpr ⟨mem_routes.mpr ⟨hfront, hlength⟩,
        mem_routes.mpr ⟨hback, hrest⟩⟩, rfl⟩
    · intro ⟨⟨front, back⟩, hparts, heq⟩
      subst heq
      obtain ⟨hfront, hback⟩ := mem_product.mp hparts
      obtain ⟨hfront, hlength⟩ := mem_routes.mp hfront
      obtain ⟨hback, hlength'⟩ := mem_routes.mp hback
      -- The other vertex is further away, since a route leads on and the two differ.
      have hdeeper : d ≤ k := by
        by_contra hle
        have hempty : back.length = 0 := hlength'.trans (by omega)
        obtain rfl := List.length_eq_zero_iff.mp hempty
        cases hback
        exact hne rfl
      have htotal : (front ++ back).length = k := by
        have : front.length = d := hlength
        have : back.length = k - d := hlength'
        rw [List.length_append]
        omega
      exact ⟨ht.shortestRoute_iff.mpr ⟨hfront.append hback, htotal⟩, front, back, rfl, hfront, hback⟩
  rw [shortestCountThrough, hset, Set.ncard_coe_finset, card_image_of_injOn, card_product]
  intro parts hparts others hothers heq
  rw [mem_coe, mem_product] at hparts hothers
  have hlength := (mem_routes.mp hparts.1).2.trans (mem_routes.mp hothers.1).2.symm
  exact Prod.ext_iff.mpr (List.append_inj heq hlength)

/-- Shortest routes are counted by the vertices one level up that they come from. -/
theorem shortestCount_succ (h : g.AtDepth source (d + 1) v) (hwell : g.WellFormed)
    (hsource : source < g.numVertices) : g.shortestCount source v =
      ∑ u ∈ range g.numVertices, (g.routes d source u).card * (g.targets u).count v := by
  rw [h.shortestCount_eq, card_routes_succ' hwell hsource (h.lt_numVertices hwell hsource)]

end AtDepth

/-- No shortest route visits a vertex that cannot be reached. -/
theorem shortestCountThrough_eq_zero (h : ¬ g.Reachable source u) (t : Nat) :
    g.shortestCountThrough source t u = 0 := by
  have hset : {route | g.ShortestRoute source t route ∧ g.Visits source t u route} = ∅ := by
    rw [Set.eq_empty_iff_forall_notMem]
    intro route ⟨_, front, back, _, hfront, _⟩
    exact h (reachable_iff_exists_walk.mpr ⟨_, walk_iff_exists_route.mpr ⟨front, hfront, rfl⟩⟩)
  rw [shortestCountThrough, hset, Set.ncard_empty]

end GraphKernels.Graph
