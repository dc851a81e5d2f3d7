import GraphKernels.Hops.Search
import GraphKernels.Proofs.Frontier.Bitmap
import GraphKernels.Proofs.Frontier.Queue
import GraphKernels.Proofs.Graph.Build

/-!
# One level of a search

Both directions fill a level in the same way. They look at arcs one after the other, and the vertices
that are newly visited are at any time the unvisited ones that one of these arcs leads to. A top-down
step looks at the arcs that the frontier lists, and a bottom-up step at those that list the frontier as
their sources. In a mirrored graph these are the same arcs, so both steps visit the same vertices.
-/

namespace GraphKernels

/-- The vertices that some marks leave unvisited. -/
def unvisited (marks : Array Int) : Finset Nat :=
  (Finset.range marks.size).filter fun v => marks.getD v 0 < 0

/-- A vertex is unvisited exactly when its mark is negative. -/
theorem mem_unvisited {marks : Array Int} {v : Nat} : v ∈ unvisited marks ↔ marks.getD v 0 < 0 := by
  rw [unvisited, Finset.mem_filter, Finset.mem_range, and_iff_right_iff_imp]
  intro hmark
  by_contra hv
  rw [getD_of_size_le (by omega)] at hmark
  omega

/-- Some marks result from others by giving a parent to every unvisited vertex that one of some arcs leads
to. The vertices that are newly visited are listed once each. -/
structure Fills (arcs : Nat → Nat → Prop) (before after : Array Int) (awake : List Nat) : Prop where
  size_eq : after.size = before.size
  nodup : awake.Nodup
  mem_iff : ∀ v, v ∈ awake ↔ v ∈ unvisited before ∧ ∃ u, arcs u v
  kept : ∀ v, v ∉ awake → after.getD v 0 = before.getD v 0
  claimed : ∀ v ∈ awake, ∃ u : Nat, arcs u v ∧ after.getD v 0 = u

namespace Fills

variable {arcs : Nat → Nat → Prop} {before after : Array Int} {awake : List Nat} {u v : Nat}

/-- Nothing happens before the first arc. -/
theorem start (before : Array Int) : Fills (fun _ _ => False) before before [] where
  size_eq := rfl
  nodup := List.nodup_nil
  mem_iff v := by simp
  kept _ _ := rfl
  claimed v hv := by simp at hv

/-- A vertex that is unvisited afterwards was unvisited before, and no arc led to it. -/
theorem notMem_of_neg (h : Fills arcs before after awake) (hv : after.getD v 0 < 0) : v ∉ awake := by
  intro hawake
  obtain ⟨u, _, hparent⟩ := h.claimed v hawake
  omega

/-- An arc to a visited vertex changes nothing. -/
theorem skip (h : Fills arcs before after awake) (into : Nat → Prop) (hv : 0 ≤ after.getD v 0) :
    Fills (fun x y => arcs x y ∨ into x ∧ y = v) before after awake where
  size_eq := h.size_eq
  nodup := h.nodup
  kept := h.kept
  claimed y hy := by
    obtain ⟨x, harc, hparent⟩ := h.claimed y hy
    exact ⟨x, Or.inl harc, hparent⟩
  mem_iff y := by
    rw [h.mem_iff]
    constructor
    · intro ⟨hunvisited, x, harc⟩
      exact ⟨hunvisited, x, Or.inl harc⟩
    · intro ⟨hunvisited, x, harc⟩
      refine ⟨hunvisited, ?_⟩
      by_contra hnone
      have hkept := h.kept y fun hy => hnone ((h.mem_iff y).mp hy).2
      rcases harc with harc | ⟨_, rfl⟩
      · exact hnone ⟨x, harc⟩
      · rw [mem_unvisited] at hunvisited
        omega

/-- An arc to an unvisited vertex makes its source the parent. -/
theorem claim (h : Fills arcs before after awake) {into : Nat → Prop} (hinto : into u)
    (hsize : v < after.size) (hv : after.getD v 0 < 0) :
    Fills (fun x y => arcs x y ∨ into x ∧ y = v) before (after.setIfInBounds v (u : Int))
      (awake ++ [v]) where
  size_eq := by rw [Array.size_setIfInBounds, h.size_eq]
  nodup := by
    rw [← List.concat_eq_append]
    exact h.nodup.concat (h.notMem_of_neg hv)
  kept y hy := by
    rw [List.mem_append, List.mem_singleton, not_or] at hy
    rw [getD_setIfInBounds_of_ne hy.2, h.kept y hy.1]
  claimed y hy := by
    by_cases hyv : y = v
    · subst hyv
      exact ⟨u, Or.inr ⟨hinto, rfl⟩, getD_setIfInBounds_self hsize⟩
    · have hy : y ∈ awake := by simpa [hyv] using hy
      obtain ⟨x, harc, hparent⟩ := h.claimed y hy
      exact ⟨x, Or.inl harc, by rw [getD_setIfInBounds_of_ne hyv, hparent]⟩
  mem_iff y := by
    have hunvisited : v ∈ unvisited before := by
      rw [mem_unvisited, ← h.kept v (h.notMem_of_neg hv)]
      exact hv
    rw [List.mem_append, List.mem_singleton, h.mem_iff]
    constructor
    · intro hy
      rcases hy with ⟨hy, x, harc⟩ | rfl
      · exact ⟨hy, x, Or.inl harc⟩
      · exact ⟨hunvisited, u, Or.inr ⟨hinto, rfl⟩⟩
    · intro ⟨hy, x, harc⟩
      rcases harc with harc | ⟨_, rfl⟩
      · exact Or.inl ⟨hy, x, harc⟩
      · exact Or.inr rfl

/-- The arcs can be described in other words. -/
theorem congr {others : Nat → Nat → Prop} (h : Fills arcs before after awake)
    (hiff : ∀ x y, arcs x y ↔ others x y) : Fills others before after awake := by
  have harcs : arcs = others := by
    funext x y
    exact propext (hiff x y)
  exact harcs ▸ h

/-- Newly visited vertices were unvisited. -/
theorem subset_unvisited (h : Fills arcs before after awake) : awake.toFinset ⊆ unvisited before := by
  intro v hv
  exact ((h.mem_iff v).mp (List.mem_toFinset.mp hv)).1

/-- There are no more newly visited vertices than there were unvisited ones. -/
theorem length_le (h : Fills arcs before after awake) : awake.length ≤ (unvisited before).card := by
  rw [← List.toFinset_card_of_nodup h.nodup]
  exact Finset.card_le_card h.subset_unvisited

end Fills

/-- Vertices have been visited, those of a list among them. -/
structure Narrows (before after : Array Int) (items : List Nat) : Prop where
  subset : unvisited after ⊆ unvisited before
  mem : ∀ v ∈ items, v ∈ unvisited before ∧ v ∉ unvisited after

/-- Filling marks visits the vertices that are listed. -/
theorem Fills.narrows {arcs : Nat → Nat → Prop} {before after : Array Int} {awake : List Nat}
    (h : Fills arcs before after awake) : Narrows before after awake where
  subset v hv := by
    rw [mem_unvisited] at hv ⊢
    rwa [← h.kept v (h.notMem_of_neg hv)]
  mem v hv := by
    refine ⟨((h.mem_iff v).mp hv).1, fun hlate => ?_⟩
    exact h.notMem_of_neg (mem_unvisited.mp hlate) hv

namespace Narrows

variable {before between after : Array Int} {items more : List Nat}

/-- Vertices can be visited in several steps. -/
theorem trans (h : Narrows before between more) (h' : Narrows between after items) :
    Narrows before after items where
  subset := h'.subset.trans h.subset
  mem v hv := ⟨h.subset (h'.mem v hv).1, (h'.mem v hv).2⟩

/-- What is added up over the unvisited vertices goes down by the part of the listed ones. -/
theorem sum_le (h : Narrows before after items) (hnodup : items.Nodup) (f : Nat → Nat) :
    ∑ v ∈ unvisited after, f v + (items.map f).sum ≤ ∑ v ∈ unvisited before, f v := by
  have hdisjoint : Disjoint (unvisited after) items.toFinset :=
    Finset.disjoint_right.mpr fun v hv => (h.mem v (List.mem_toFinset.mp hv)).2
  have hsubset : unvisited after ∪ items.toFinset ⊆ unvisited before :=
    Finset.union_subset h.subset fun v hv => (h.mem v (List.mem_toFinset.mp hv)).1
  rw [← List.sum_toFinset f hnodup, ← Finset.sum_union hdisjoint]
  exact Finset.sum_le_sum_of_subset hsubset

/-- Every listed vertex is one unvisited vertex less. -/
theorem card_le (h : Narrows before after items) (hnodup : items.Nodup) :
    (unvisited after).card + items.length ≤ (unvisited before).card := by
  simpa using h.sum_le hnodup fun _ => 1

end Narrows

/-! ### Top-down steps -/

namespace Expansion

variable {g : Graph} {arcs : Nat → Nat → Prop} {before : Array Int} {queue : WindowQueue}
  {e : Expansion} {u v : Nat}

/-- A top-down step has looked at some arcs: it has filled marks along them, carries the newly visited
vertices in its batch and has added up their degrees, which are the marks that they had. -/
def Tracks (before : Array Int) (queue : WindowQueue) (arcs : Nat → Nat → Prop) (e : Expansion) :
    Prop :=
  ∃ awake, Fills arcs before e.parents awake ∧ Batch.Carries queue awake e.claimed ∧
    e.scoutCount = -(awake.map (before.getD · 0)).sum

/-- The arcs can be described in other words. -/
theorem Tracks.congr {others : Nat → Nat → Prop} (h : e.Tracks before queue arcs)
    (hiff : ∀ x y, arcs x y ↔ others x y) : e.Tracks before queue others := by
  obtain ⟨awake, hfills, hrest⟩ := h
  exact ⟨awake, hfills.congr hiff, hrest⟩

/-- Looking at one more arc. -/
theorem claim_yields (h : e.Tracks before queue arcs) (hv : v < before.size)
    (hroom : queue.tail + (unvisited before).card ≤ queue.capacity) :
    Yields (claim u e v) (Tracks before queue fun x y => arcs x y ∨ x = u ∧ y = v) := by
  obtain ⟨awake, hfills, hcarries, hscout⟩ := h
  have hsize : v < e.parents.size := by rwa [hfills.size_eq]
  rw [claim, readAt_eq_getD 0 hsize, ok_bind]
  by_cases hmark : e.parents.getD v 0 < 0
  · have hlength := hfills.length_le
    have hkept := hfills.kept v (hfills.notMem_of_neg hmark)
    rw [if_pos hmark]
    apply (Batch.push_yields hcarries (by omega)).mapError.bind
    intro claimed hclaimed
    rw [writeAt_eq_setIfInBounds _ hsize, ok_bind, Yields.pure_iff]
    refine ⟨awake ++ [v], hfills.claim rfl hsize hmark, hclaimed, ?_⟩
    simp only [hscout, List.map_append, List.map_singleton, List.sum_append, List.sum_singleton, hkept]
    omega
  · rw [if_neg hmark]
    exact .ok ⟨awake, hfills.skip _ (by omega), hcarries, hscout⟩

/-- Looking at all arcs of a vertex. -/
theorem expand_yields (hwell : g.WellFormed) (h : e.Tracks before queue arcs)
    (hsize : before.size = g.numVertices) (hu : u < g.numVertices)
    (hroom : queue.tail + (unvisited before).card ≤ queue.capacity) :
    Yields (expand g e u) (Tracks before queue fun x y => arcs x y ∨ x = u ∧ g.HasArc x y) := by
  rw [expand, hwell.outNeighbors_eq hu, ok_bind]
  have hloop : Yields ((g.targets u).foldlM (claim u) e)
      (Tracks before queue fun x y => arcs x y ∨ x = u ∧ y ∈ g.targets u) := by
    apply Yields.foldlM fun (seen : List Nat) (e : Expansion) =>
      e.Tracks before queue fun x y => arcs x y ∨ x = u ∧ y ∈ seen
    · simpa using h
    · intro seen v rest e hitems he
      have hv : v < g.numVertices := by
        apply hwell.lt_of_hasArc' (u := u)
        simp [Graph.HasArc, hitems]
      apply (claim_yields he (hsize ▸ hv) hroom).mono
      intro e he
      apply he.congr
      intro x y
      rw [List.mem_append, List.mem_singleton, and_or_left, or_assoc]
  apply hloop.mono
  intro e he
  apply he.congr
  intro x y
  apply or_congr_right (and_congr_right _)
  intro hx
  rw [hx, Graph.HasArc]

end Expansion

variable {g : Graph} {before : Array Int} {queue : WindowQueue} {frontier : List Nat}

/-- A top-down step visits the unvisited vertices that the window has an arc to, which become the next
window. -/
theorem pushLevel_yields (hwell : g.WellFormed) (hsize : before.size = g.numVertices)
    (hshows : queue.Shows frontier) (hfrontier : ∀ u ∈ frontier, u < g.numVertices)
    (hroom : queue.tail + (unvisited before).card ≤ queue.capacity) :
    Yields (pushLevel g before queue) fun (after, next, scoutCount) => ∃ awake,
      Fills (fun u v => u ∈ frontier ∧ g.HasArc u v) before after awake ∧ next.Shows awake ∧
        next.tail = queue.tail + awake.length ∧ next.capacity = queue.capacity ∧
        scoutCount = -(awake.map (before.getD · 0)).sum := by
  have hloop : Yields (frontier.foldlM (Expansion.expand g) { parents := before, claimed := { queue } })
      (Expansion.Tracks before queue fun u v => u ∈ frontier ∧ g.HasArc u v) := by
    apply Yields.foldlM fun (seen : List Nat) (e : Expansion) =>
      e.Tracks before queue fun u v => u ∈ seen ∧ g.HasArc u v
    · exact ⟨[], by simpa using Fills.start before, Batch.carries_nil hshows.tail_le, rfl⟩
    · intro seen u rest e hitems he
      have hu : u < g.numVertices := hfrontier u (by simp [hitems])
      apply (Expansion.expand_yields hwell he hsize hu hroom).mono
      intro e he
      apply he.congr
      intro x y
      rw [List.mem_append, List.mem_singleton, or_and_right]
  rw [pushLevel, hshows.window_eq, ok_bind]
  apply hloop.bind
  intro e he
  obtain ⟨awake, hfills, hcarries, hscout⟩ := he
  have hlength := hfills.length_le
  apply (Batch.close_yields hcarries (by omega)).mapError.bind
  intro next hnext
  exact .ok ⟨awake, hfills, hnext.slide_shows hshows.windowEnd_eq, hnext.tail_eq, hnext.capacity_eq,
    hscout⟩

/-! ### Bottom-up steps -/

namespace Awakening

variable {arcs : Nat → Nat → Prop} {members : Nat → Prop} {front : Bitmap} {a : Awakening} {u : Nat}

/-- A bottom-up step has looked at some arcs: it has filled marks along them, and has set and counted
the newly visited vertices. -/
def Tracks (g : Graph) (before : Array Int) (arcs : Nat → Nat → Prop) (a : Awakening) : Prop :=
  ∃ awake, Fills arcs before a.parents awake ∧ a.next.Holds g.numVertices (· ∈ awake) ∧
    a.awake = awake.length

/-- The arcs can be described in other words. -/
theorem Tracks.congr {others : Nat → Nat → Prop} (h : a.Tracks g before arcs)
    (hiff : ∀ x y, arcs x y ↔ others x y) : a.Tracks g before others := by
  obtain ⟨awake, hfills, hrest⟩ := h
  exact ⟨awake, hfills.congr hiff, hrest⟩

/-- Looking at the sources of a vertex that are in the frontier. -/
theorem wake_yields (hwell : g.WellFormed) (hsize : before.size = g.numVertices)
    (hfront : front.Holds g.numVertices members) (h : a.Tracks g before arcs)
    (hu : u < g.numVertices) :
    Yields (wake g front a u)
      (Tracks g before fun x y => arcs x y ∨ (members x ∧ x ∈ g.sources u) ∧ y = u) := by
  obtain ⟨awake, hfills, hholds, hcount⟩ := h
  have hlt : u < a.parents.size := by rwa [hfills.size_eq, hsize]
  have htest : g.findInNeighbor? u front.get = .ok ((g.sources u).find? front.contains) :=
    hwell.incoming.findNeighbor?_row hu fun v hv => hfront.get_eq (hwell.source_lt hv)
  rw [wake, readAt_eq_getD 0 hlt, ok_bind, htest, ok_bind]
  by_cases hmark : 0 ≤ a.parents.getD u 0
  · rw [if_pos hmark]
    exact .ok ⟨awake, hfills.skip _ hmark, hholds, hcount⟩
  · rw [if_neg hmark]
    cases hfound : (g.sources u).find? front.contains with
    | none =>
      -- No source of the vertex is in the frontier, so there was nothing to look at.
      have hnone (x : Nat) : ¬ (members x ∧ x ∈ g.sources u) := by
        intro ⟨hx, hsource⟩
        exact List.find?_eq_none.mp hfound x hsource ((hfront.contains_iff x).mpr hx)
      refine .ok ⟨awake, hfills.congr fun x y => ?_, hholds, hcount⟩
      simp only [hnone, false_and, or_false]
    | some v =>
      have hv := List.mem_of_find?_eq_some hfound
      have hmember := (hfront.contains_iff v).mp (List.find?_some hfound)
      change Yields (do
        let parents ← writeAt a.parents u (v : Int)
        let next ← a.next.set u
        pure ({ parents, next, awake := a.awake + 1 } : Awakening)) _
      rw [writeAt_eq_setIfInBounds _ hlt, ok_bind]
      apply (hholds.set_yields hu).bind
      intro next hnext
      refine .ok ⟨awake ++ [u], hfills.claim ⟨hmember, hv⟩ hlt (by omega),
        hnext.congr fun x => ?_, by simp [hcount]⟩
      rw [List.mem_append, List.mem_singleton]

end Awakening

/-- A bottom-up step visits the unvisited vertices that have a source in the frontier, which become the
next frontier. -/
theorem pullLevel_yields {members : Nat → Prop} {front next : Bitmap} (hwell : g.WellFormed)
    (hsize : before.size = g.numVertices) (hfront : front.Holds g.numVertices members)
    (hnext : g.numVertices ≤ next.room) :
    Yields (pullLevel g before front next)
      (Awakening.Tracks g before fun u v => members u ∧ u ∈ g.sources v) := by
  have hloop : Yields (g.vertices.foldlM (Awakening.wake g front) { parents := before, next := next.reset })
      (Awakening.Tracks g before fun u v => (members u ∧ u ∈ g.sources v) ∧ v ∈ g.vertices) := by
    apply Yields.foldlM fun (seen : List Nat) (a : Awakening) =>
      a.Tracks g before fun u v => (members u ∧ u ∈ g.sources v) ∧ v ∈ seen
    · refine ⟨[], by simpa using Fills.start before, ?_, rfl⟩
      exact (Bitmap.holds_reset hnext).congr fun v => by simp
    · intro seen u rest a hitems ha
      have hu : u < g.numVertices := List.mem_range.mp (hitems ▸ by simp : u ∈ g.vertices)
      apply (Awakening.wake_yields hwell hsize hfront ha hu).mono
      intro a ha
      apply ha.congr
      intro x y
      rw [List.mem_append, List.mem_singleton, and_or_left]
      exact or_congr_right ⟨fun ⟨harc, hy⟩ => ⟨hy ▸ harc, hy⟩, fun ⟨harc, hy⟩ => ⟨hy ▸ harc, hy⟩⟩
  apply hloop.mono
  intro a ha
  apply ha.congr
  intro u v
  rw [and_iff_left_iff_imp]
  intro ⟨_, hsource⟩
  exact List.mem_range.mpr (hwell.lt_of_mem_sources hsource)

/-! ### Changes of direction -/

/-- The window of a queue becomes the set of bits. -/
theorem bitmapOfWindow_yields {n : Nat} {bitmap : Bitmap} (hshows : queue.Shows frontier)
    (hfrontier : ∀ u ∈ frontier, u < n) (hroom : n ≤ bitmap.room) :
    Yields (bitmapOfWindow queue bitmap) (·.Holds n (· ∈ frontier)) := by
  rw [bitmapOfWindow, hshows.window_eq, ok_bind]
  apply Yields.foldlM fun (seen : List Nat) (b : Bitmap) => b.Holds n (· ∈ seen)
  · exact (Bitmap.holds_reset hroom).congr fun v => by simp
  · intro seen u rest b hitems hb
    apply (hb.set_yields (hfrontier u (by simp [hitems]))).mono
    intro b hb
    apply hb.congr
    intro v
    rw [List.mem_append, List.mem_singleton]

/-- The set bits become the window of a queue, in ascending order. -/
theorem windowOfBitmap_yields {n : Nat} {bitmap : Bitmap} {members : Nat → Prop}
    (hholds : bitmap.Holds n members) (hshows : queue.Shows frontier)
    (hroom : queue.tail + ((List.range n).filter bitmap.contains).length ≤ queue.capacity) :
    Yields (windowOfBitmap n bitmap queue) fun next =>
      next.Shows ((List.range n).filter bitmap.contains) ∧
        next.tail = queue.tail + ((List.range n).filter bitmap.contains).length ∧
        next.capacity = queue.capacity := by
  have hloop : Yields ((List.range n).foldlM (stageSetBit bitmap) { queue })
      (Batch.Carries queue ((List.range n).filter bitmap.contains)) := by
    apply Yields.foldlM fun (seen : List Nat) (b : Batch) =>
      Batch.Carries queue (seen.filter bitmap.contains) b
    · exact Batch.carries_nil hshows.tail_le
    · intro seen u rest b hitems hb
      have hu : u < n := List.mem_range.mp (hitems ▸ by simp : u ∈ List.range n)
      rw [stageSetBit, hholds.get_eq hu, ok_bind, List.filter_append]
      cases hset : bitmap.contains u with
      | true =>
        have hlength : (seen.filter bitmap.contains).length ≤
            ((List.range n).filter bitmap.contains).length := by
          rw [hitems, List.filter_append, List.length_append]
          omega
        simpa [hset] using (Batch.push_yields hb (by omega)).mapError
      | false => simpa [hset] using hb
  rw [windowOfBitmap]
  apply hloop.bind
  intro b hb
  apply (Batch.close_yields hb hroom).mapError.bind
  intro next hnext
  exact .ok ⟨hnext.slide_shows hshows.windowEnd_eq, hnext.tail_eq, hnext.capacity_eq⟩

end GraphKernels
