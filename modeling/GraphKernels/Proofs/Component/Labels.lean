import GraphKernels.Component.Labels
import GraphKernels.Proofs.Component.Afforest

/-!
# Floods label every component with its smallest vertex

A vertex gets a label when it starts to wait, and it waits once. So the vertices without a label and those
that wait are, taken together, one less with every vertex that is looked at, however many arcs it has and
whatever their other ends say about them. That bounds a flood on any rows.

While a flood goes on, every vertex that it has labelled is joined to its start, and waits unless all that
its rows list is labelled too. In a mirrored graph a flood therefore labels a whole component. Floods start
from ascending vertices, and one that has no label yet is the smallest of its component.
-/

namespace GraphKernels

/-- A vertex has a label. -/
def Labelled (labels : Array (Option Nat)) (v : Nat) : Prop := labels.getD v none ≠ none

/-- What a labelled vertex lists is labelled. -/
def ListsLabelled (g : Graph) (labels : Array (Option Nat)) (u : Nat) : Prop :=
  ∀ v ∈ g.targets u ++ g.sources u, Labelled labels v

namespace Flood

variable {g : Graph} {joined : Nat → Nat → Prop} {before : Array (Option Nat)} {active : List Nat}
  {start u v : Nat} {f next : Flood}

/-- A bound on the vertices that are still to be looked at. -/
def work (f : Flood) : Nat := f.labels.count none + f.pending.length

/-- The labels from before are kept and the new ones are that of the start, which is joined to all vertices
that have it. A vertex that has it lists labelled vertices, or waits, or is being looked at. -/
structure Tracks (g : Graph) (joined : Nat → Nat → Prop) (start : Nat) (before : Array (Option Nat))
    (active : List Nat) (f : Flood) : Prop where
  size_eq : f.labels.size = g.numVertices
  pending_lt : ∀ v ∈ f.pending, v < g.numVertices
  pending_joined : ∀ v ∈ f.pending, joined start v
  kept : ∀ v label, before.getD v none = some label → f.labels.getD v none = some label
  fresh : ∀ v label, f.labels.getD v none = some label →
    before.getD v none = some label ∨ label = start ∧ joined start v
  owed : ∀ u, Labelled f.labels u →
    Labelled before u ∨ ListsLabelled g f.labels u ∨ u ∈ f.pending ∨ u ∈ active

/-! ### One vertex -/

/-- A vertex that gets a label, and waits from then on. -/
def mark (f : Flood) (start v : Nat) : Flood := ⟨f.labels.setIfInBounds v (some start), v :: f.pending⟩

/-- The vertex has a label now, and the others have theirs. -/
theorem labelled_mark_iff (hv : v < f.labels.size) :
    Labelled (f.mark start v).labels u ↔ u = v ∨ Labelled f.labels u := by
  rw [Labelled, Labelled, mark]
  by_cases heq : u = v
  · subst heq
    simp [getD_setIfInBounds_self hv]
  · rw [getD_setIfInBounds_of_ne heq, iff_false_intro heq, false_or]

/-- One vertex more waits, and one less is without a label. -/
theorem work_mark (hv : v < f.labels.size) (hnone : f.labels.getD v none = none) :
    (f.mark start v).work = f.work := by
  have hentry : f.labels[v] = none := by simpa [hv] using hnone
  have hpos : 0 < f.labels.count none := Array.count_pos_iff.mpr (hentry ▸ Array.getElem_mem hv)
  have hcount : (f.labels.setIfInBounds v (some start)).count none = f.labels.count none - 1 := by
    rw [Array.setIfInBounds, dif_pos hv, Array.count_set, hentry]
    simp
  simp only [work, mark, hcount, List.length_cons]
  omega

/-- A vertex that is joined to the start can get its label. -/
theorem Tracks.mark (h : f.Tracks g joined start before active) (hv : v < g.numVertices)
    (hjoined : joined start v) (hnone : f.labels.getD v none = none) :
    (f.mark start v).Tracks g joined start before active := by
  have hsize : v < f.labels.size := h.size_eq.symm ▸ hv
  have hself : (f.mark start v).labels.getD v none = some start := getD_setIfInBounds_self hsize
  have hother (w : Nat) (hne : w ≠ v) : (f.mark start v).labels.getD w none = f.labels.getD w none :=
    getD_setIfInBounds_of_ne hne
  exact {
    size_eq := Array.size_setIfInBounds.trans h.size_eq
    pending_lt := List.forall_mem_cons.mpr ⟨hv, h.pending_lt⟩
    pending_joined := List.forall_mem_cons.mpr ⟨hjoined, h.pending_joined⟩
    kept := fun w label hw => by
      have hlabel := h.kept w label hw
      rw [hother w (fun heq => by simp [← heq, hlabel] at hnone), hlabel]
    fresh := fun w label hw => by
      by_cases heq : w = v
      · rw [heq, hself] at hw
        exact Or.inr ⟨(Option.some.inj hw).symm, heq ▸ hjoined⟩
      · rw [hother w heq] at hw
        exact h.fresh w label hw
    owed := fun w hw => by
      rcases (labelled_mark_iff hsize).mp hw with rfl | hw
      · exact Or.inr (Or.inr (Or.inl List.mem_cons_self))
      · rcases h.owed w hw with hbefore | hlists | hpending | hactive
        · exact Or.inl hbefore
        · exact Or.inr (Or.inl fun x hx => (labelled_mark_iff hsize).mpr (Or.inr (hlists x hx)))
        · exact Or.inr (Or.inr (Or.inl (List.mem_cons_of_mem v hpending)))
        · exact Or.inr (Or.inr (Or.inr hactive)) }

/-- A vertex that is joined to the start has a label afterwards, and no vertex loses its own. -/
theorem label_yields (h : f.Tracks g joined start before active) (hv : v < g.numVertices)
    (hjoined : joined start v) :
    Yields (f.label start v) fun next =>
      (next.Tracks g joined start before active ∧ next.work = f.work) ∧ Labelled next.labels v ∧
        ∀ u, Labelled f.labels u → Labelled next.labels u := by
  have hsize : v < f.labels.size := h.size_eq.symm ▸ hv
  rw [Flood.label, readAt_eq_getD none hsize, ok_bind]
  cases hentry : f.labels.getD v none with
  | some label => exact .ok ⟨⟨h, rfl⟩, by simp [Labelled, hentry], fun _ hu => hu⟩
  | none =>
    simp only [writeAt_eq_setIfInBounds _ hsize, ok_bind]
    exact .ok ⟨⟨h.mark hv hjoined hentry, work_mark hsize hentry⟩,
      (labelled_mark_iff hsize).mpr (Or.inl rfl), fun u hu => (labelled_mark_iff hsize).mpr (Or.inr hu)⟩

/-! ### All vertices that wait -/

/-- The first vertex that waits is the one that is being looked at next. -/
theorem Tracks.pop {rest : List Nat} (h : f.Tracks g joined start before [])
    (hpending : f.pending = u :: rest) :
    Tracks g joined start before [u] { f with pending := rest } where
  size_eq := h.size_eq
  pending_lt v hv := h.pending_lt v (hpending ▸ List.mem_cons_of_mem u hv)
  pending_joined v hv := h.pending_joined v (hpending ▸ List.mem_cons_of_mem u hv)
  kept := h.kept
  fresh := h.fresh
  owed v hv := by
    rcases h.owed v hv with hbefore | hlists | hwaits | hactive
    · exact Or.inl hbefore
    · exact Or.inr (Or.inl hlists)
    · rw [hpending, List.mem_cons] at hwaits
      rcases hwaits with rfl | hwaits
      · exact Or.inr (Or.inr (Or.inr List.mem_cons_self))
      · exact Or.inr (Or.inr (Or.inl hwaits))
    · exact absurd hactive List.not_mem_nil

/-- A vertex has been looked at once all that it lists is labelled. -/
theorem Tracks.drop (h : f.Tracks g joined start before [u]) (hlists : ListsLabelled g f.labels u) :
    f.Tracks g joined start before [] where
  size_eq := h.size_eq
  pending_lt := h.pending_lt
  pending_joined := h.pending_joined
  kept := h.kept
  fresh := h.fresh
  owed v hv := by
    rcases h.owed v hv with hbefore | hlists' | hwaits | hactive
    · exact Or.inl hbefore
    · exact Or.inr (Or.inl hlists')
    · exact Or.inr (Or.inr (Or.inl hwaits))
    · exact Or.inr (Or.inl (List.mem_singleton.mp hactive ▸ hlists))

/-- Looking at a vertex labels all that it lists. -/
theorem labelAll_yields (h : f.Tracks g joined start before [u]) (hwell : g.WellFormed)
    (hjoins : JoinsRows g joined) (hu : joined start u) :
    Yields ((g.targets u ++ g.sources u).foldlM (Flood.label start) f) fun next =>
      next.Tracks g joined start before [] ∧ next.work = f.work ∧
        ∀ w, Labelled f.labels w → Labelled next.labels w := by
  have hloop : Yields ((g.targets u ++ g.sources u).foldlM (Flood.label start) f) fun next =>
      (next.Tracks g joined start before [u] ∧ next.work = f.work ∧
        ∀ w, Labelled f.labels w → Labelled next.labels w) ∧ ListsLabelled g next.labels u := by
    apply Yields.foldlM_forall
      (fun next : Flood => next.Tracks g joined start before [u] ∧ next.work = f.work ∧
        ∀ w, Labelled f.labels w → Labelled next.labels w)
      fun v (next : Flood) => Labelled next.labels v
    · exact ⟨h, rfl, fun _ hw => hw⟩
    · intro v hv next hnext
      obtain ⟨hnext, hwork, hkept⟩ := hnext
      have hlt : v < g.numVertices := by
        rcases List.mem_append.mp hv with hv | hv
        · exact hwell.lt_of_hasArc' hv
        · exact hwell.source_lt hv
      have hjoined : joined u v := by
        rcases List.mem_append.mp hv with hv | hv
        · exact hjoins.target hv
        · exact hjoins.source hv
      apply (label_yields hnext hlt (hjoins.equivalence.trans hu hjoined)).mono
      intro last hlast
      obtain ⟨⟨hlast, hwork'⟩, hlabelled, hkept'⟩ := hlast
      exact ⟨⟨hlast, hwork'.trans hwork, fun w hw => hkept' w (hkept w hw)⟩, hlabelled, hkept'⟩
  apply hloop.mono
  intro next hnext
  obtain ⟨⟨hnext, hwork, hkept⟩, hlists⟩ := hnext
  exact ⟨hnext.drop hlists, hwork, hkept⟩

/-- A flood ends, because every vertex waits at most once. -/
theorem run_yields {fuel : Nat} (h : f.Tracks g joined start before []) (hwell : g.WellFormed)
    (hjoins : JoinsRows g joined) (hfuel : f.work ≤ fuel) :
    Yields (run g start fuel f) fun last => (last.Tracks g joined start before [] ∧ last.pending = []) ∧
      ∀ w, Labelled f.labels w → Labelled last.labels w := by
  induction fuel generalizing f with
  | zero =>
    have hpending : f.pending = [] := by
      rw [work] at hfuel
      exact List.length_eq_zero_iff.mp (by omega)
    rw [run, hpending]
    exact .ok ⟨⟨h, hpending⟩, fun _ hw => hw⟩
  | succ fuel ih =>
    rw [run]
    cases hpending : f.pending with
    | nil => exact .ok ⟨⟨h, hpending⟩, fun _ hw => hw⟩
    | cons u rest =>
      have hmem : u ∈ f.pending := hpending ▸ List.mem_cons_self
      have hu := h.pending_lt u hmem
      have hwork : f.work = (Flood.mk f.labels rest).work + 1 := by
        rw [work, work, hpending, List.length_cons, Nat.add_assoc]
      simp only [hwell.outNeighbors_eq hu, hwell.inNeighbors_eq hu, ok_bind]
      apply (labelAll_yields (h.pop hpending) hwell hjoins (h.pending_joined u hmem)).bind
      intro next hnext
      obtain ⟨hnext, hsame, hkept⟩ := hnext
      apply (ih hnext (by omega)).mono
      intro last hlast
      obtain ⟨hlast, hkept'⟩ := hlast
      exact ⟨hlast, fun w hw => hkept' w (hkept w hw)⟩

/-- What a flood from a vertex changes: labels are kept, new ones are that of the start, which is joined to
the vertices that have it, and these list labelled vertices. -/
structure Spreads (g : Graph) (joined : Nat → Nat → Prop) (start : Nat)
    (before after : Array (Option Nat)) : Prop where
  size_eq : after.size = g.numVertices
  labelled_start : Labelled after start
  kept : ∀ v label, before.getD v none = some label → after.getD v none = some label
  fresh : ∀ v label, after.getD v none = some label →
    before.getD v none = some label ∨ label = start ∧ joined start v
  lists : ∀ u, Labelled after u → Labelled before u ∨ ListsLabelled g after u

/-- No vertex loses its label in a flood. -/
theorem Spreads.labelled {after : Array (Option Nat)} (h : Spreads g joined start before after)
    (hu : Labelled before u) : Labelled after u := by
  obtain ⟨label, hlabel⟩ := Option.ne_none_iff_exists'.mp hu
  rw [Labelled, h.kept u label hlabel]
  exact Option.some_ne_none label

/-- A flood from a vertex of the graph ends. -/
theorem spread_yields (hwell : g.WellFormed) (hjoins : JoinsRows g joined)
    (hsize : before.size = g.numVertices) (hstart : start < g.numVertices) :
    Yields (spread g before start) (Spreads g joined start before) := by
  have htracks : (Flood.mk before []).Tracks g joined start before [] :=
    ⟨hsize, by simp, by simp, fun _ _ h => h, fun _ _ h => Or.inl h, fun _ h => Or.inl h⟩
  rw [spread]
  apply (label_yields htracks hstart (hjoins.equivalence.refl start)).bind
  intro f hf
  obtain ⟨⟨hf, hwork⟩, hlabelled, _⟩ := hf
  have hfuel : f.work ≤ g.numVertices := by
    rw [hwork, work, ← hsize]
    exact Array.count_le_size
  apply (run_yields hf hwell hjoins hfuel).bind
  intro last hlast
  obtain ⟨⟨hlast, hpending⟩, hkept⟩ := hlast
  have hlists (u : Nat) (hu : Labelled last.labels u) :
      Labelled before u ∨ ListsLabelled g last.labels u := by
    have howed := hlast.owed u hu
    rwa [hpending, or_iff_left List.not_mem_nil, or_iff_left List.not_mem_nil] at howed
  exact .ok ⟨hlast.size_eq, hkept start hlabelled, hlast.kept, hlast.fresh, hlists⟩

end Flood

/-! ### All floods -/

namespace Graph

variable {g : Graph} {labels after : Array (Option Nat)} {seen : List Nat} {start u v : Nat}

/-- Floods have started from some vertices of the graph, which have labels now. A label is the least vertex
that arcs join to the one that has it, and what a labelled vertex lists is labelled. -/
structure Flooded (g : Graph) (seen : List Nat) (labels : Array (Option Nat)) : Prop where
  size_eq : labels.size = g.numVertices
  least : ∀ v label, labels.getD v none = some label → IsLeast {u | g.Joined v u} label
  closed : ∀ u, Labelled labels u → ListsLabelled g labels u
  labelled : ∀ u ∈ seen, Labelled labels u

/-- Between floods either all vertices of a component have labels or none has. -/
theorem Flooded.labelled_iff (h : g.Flooded seen labels) (hwell : g.WellFormed) (hmirrored : g.Mirrored)
    (hjoined : g.Joined u v) : Labelled labels u ↔ Labelled labels v := by
  have hequivalence : Equivalence fun x y => Labelled labels x ↔ Labelled labels y :=
    ⟨fun _ => Iff.rfl, fun hiff => hiff.symm, fun hiff hiff' => hiff.trans hiff'⟩
  apply Forest.eqvGen_le hequivalence _ hjoined
  intro x y harc
  constructor
  · intro hx
    exact h.closed x hx y (List.mem_append_left _ harc)
  · intro hy
    exact h.closed y hy x (List.mem_append_right _ ((hmirrored.mem_sources_iff hwell).mpr harc))

/-- The next flood starts from the least vertex that none has started from. -/
theorem Flooded.spread (h : g.Flooded seen labels) (hwell : g.WellFormed) (hmirrored : g.Mirrored)
    (hseen : ∀ x < start, x ∈ seen) (hspread : Flood.Spreads g g.Joined start labels after) :
    g.Flooded (seen ++ [start]) after where
  size_eq := hspread.size_eq
  least v label hv := by
    cases hbefore : labels.getD v none with
    | some before =>
      rw [hspread.kept v before hbefore] at hv
      exact Option.some.inj hv ▸ h.least v before hbefore
    | none =>
      have hunlabelled : ¬ Labelled labels v := fun hlabelled => hlabelled hbefore
      obtain ⟨rfl, hjoined⟩ := (hspread.fresh v label hv).resolve_left (by simp [hbefore])
      refine ⟨g.joined_equivalence.symm hjoined, fun x hx => Nat.le_of_not_lt fun hlt => ?_⟩
      -- Floods have started from all smaller vertices, so one of the same component would have labelled it.
      exact hunlabelled ((h.labelled_iff hwell hmirrored hx).mpr (h.labelled x (hseen x hlt)))
  closed u hu := by
    rcases hspread.lists u hu with hbefore | hlists
    · exact fun x hx => hspread.labelled (h.closed u hbefore x hx)
    · exact hlists
  labelled u hu := by
    rcases List.mem_append.mp hu with hu | hu
    · exact hspread.labelled (h.labelled u hu)
    · exact List.mem_singleton.mp hu ▸ hspread.labelled_start

/-- No vertex has a label before the first flood. -/
theorem flooded_nil (g : Graph) : g.Flooded [] (Array.replicate g.numVertices none) := by
  have hnone (u : Nat) : (Array.replicate g.numVertices (none : Option Nat)).getD u none = none := by
    rw [Array.getD_eq_getD_getElem?, Array.getElem?_replicate]
    split <;> rfl
  exact {
    size_eq := Array.size_replicate
    least := fun v label hv => by simp [hnone] at hv
    closed := fun u hu => absurd (hnone u) hu
    labelled := fun u hu => absurd hu List.not_mem_nil }

/-- After the last flood every vertex has the least vertex of its component as its label. -/
theorem Flooded.isLeastLabels (h : g.Flooded g.vertices labels) (hwell : g.WellFormed) :
    IsLeastLabels g (labels.map (·.getD 0)) where
  size_eq := Array.size_map.trans h.size_eq
  entry_eq v := by
    obtain ⟨label, hlabel⟩ := Option.ne_none_iff_exists'.mp (h.labelled v (List.mem_range.mpr v.isLt))
    obtain ⟨hjoined, hle⟩ := h.least v label hlabel
    have hlt : label < g.numVertices := Nat.lt_of_le_of_lt (hle (g.joined_equivalence.refl v)) v.isLt
    refine ⟨⟨label, hlt⟩, ?_, ?_, fun u hu => ?_⟩
    · rw [Array.getElem?_map, getElem?_eq_getD none (h.size_eq.symm ▸ v.isLt), hlabel]
      rfl
    · exact (joined_iff_reachable hwell v ⟨label, hlt⟩).mp hjoined
    · exact hle ((joined_iff_reachable hwell v u).mpr hu)

/-- When it is the turn of a vertex, it has been that of all smaller ones. -/
theorem vertices_eq_append {rest : List Nat} (h : g.vertices = seen ++ start :: rest) :
    start < g.numVertices ∧ seen = List.range start := by
  rw [vertices, List.range_eq_range'] at h
  obtain ⟨bound, hbound, hseen, hrest⟩ := List.range'_eq_append_iff.mp h
  obtain ⟨rfl, hpos, _⟩ := List.range'_eq_cons_iff.mp hrest.symm
  rw [hseen, Nat.zero_add, Nat.mul_one, List.range_eq_range']
  exact ⟨by omega, rfl⟩

/-- The serial labelling ends in one label for every vertex. -/
theorem componentLabels_yields (hwell : g.WellFormed) :
    Yields g.componentLabels fun labels => labels.size = g.numVertices := by
  have hfloods : Yields (g.vertices.foldlM (Flood.spread g) (Array.replicate g.numVertices none))
      fun labels => labels.size = g.numVertices := by
    apply Yields.foldlM fun (_ : List Nat) (labels : Array (Option Nat)) => labels.size = g.numVertices
    · exact Array.size_replicate
    · intro seen start rest labels hvertices hsize
      obtain ⟨hstart, _⟩ := vertices_eq_append hvertices
      apply (Flood.spread_yields hwell (joinsRows_true g) hsize hstart).mono
      exact fun _ hspread => hspread.size_eq
  rw [componentLabels]
  apply hfloods.bind
  intro labels hsize
  exact .ok (Array.size_map.trans hsize)

/-- In a mirrored graph it labels every component with its smallest vertex. -/
theorem componentLabels_isLeastLabels (hwell : g.WellFormed) (hmirrored : g.Mirrored) :
    Yields g.componentLabels (IsLeastLabels g) := by
  have hfloods : Yields (g.vertices.foldlM (Flood.spread g) (Array.replicate g.numVertices none))
      (g.Flooded g.vertices) := by
    apply Yields.foldlM g.Flooded
    · exact g.flooded_nil
    · intro seen start rest labels hvertices hflooded
      obtain ⟨hstart, rfl⟩ := vertices_eq_append hvertices
      have hseen (x : Nat) (hx : x < start) : x ∈ List.range start := List.mem_range.mpr hx
      have hjoins := joinsRows_joined hwell hmirrored
      apply (Flood.spread_yields hwell hjoins hflooded.size_eq hstart).mono
      exact fun after hspread => hflooded.spread hwell hmirrored hseen hspread
  rw [componentLabels]
  apply hfloods.bind
  intro labels hflooded
  exact .ok (hflooded.isLeastLabels hwell)

end Graph

end GraphKernels
