import GraphKernels.Proofs.Hops.Level

/-!
# Both directions visit the same vertices

A top-down step follows the out-arcs of the frontier, and a bottom-up step looks along the in-arcs of the
unvisited vertices. In a built graph these are the same arcs, so from the same marks and the same frontier
both steps visit the same vertices, each with a parent in the frontier. The two parents of a vertex may
differ. What a bitmap held before it is filled makes no difference, and a change of direction hands the
frontier on as it is.
-/

namespace GraphKernels

variable {g : Graph} {marks before after : Array Int} {frontier members : Finset Nat} {awake : List Nat}
  {v : Nat}

/-- The unvisited vertices that the frontier has an arc to. -/
def Graph.nextLevel (g : Graph) (marks : Array Int) (frontier : Finset Nat) : Finset Nat :=
  (unvisited marks).filter fun v => ∃ u ∈ frontier, g.HasArc u v

/-- A vertex is on the next level when it is unvisited and some arc leads to it from the frontier. -/
theorem Graph.mem_nextLevel :
    v ∈ g.nextLevel marks frontier ↔ v ∈ unvisited marks ∧ ∃ u ∈ frontier, g.HasArc u v := Finset.mem_filter

/-- The vertices of a set get parents in the frontier that have an arc to them, and no other mark
changes. -/
structure Adopts (g : Graph) (frontier visited : Finset Nat) (before after : Array Int) : Prop where
  size_eq : after.size = before.size
  parent : ∀ v ∈ visited, ∃ u ∈ frontier, g.HasArc u v ∧ after.getD v 0 = u
  kept : ∀ v ∉ visited, after.getD v 0 = before.getD v 0

/-- Filling marks along the arcs of the frontier lists the next level. -/
theorem Fills.toFinset_eq (h : Fills (fun u v => u ∈ frontier ∧ g.HasArc u v) before after awake) :
    awake.toFinset = g.nextLevel before frontier := by
  ext v
  rw [List.mem_toFinset, h.mem_iff, Graph.mem_nextLevel]

/-- Filling marks along the arcs of the frontier gives parents to the next level. -/
theorem Fills.adopts (h : Fills (fun u v => u ∈ frontier ∧ g.HasArc u v) before after awake) :
    Adopts g frontier (g.nextLevel before frontier) before after where
  size_eq := h.size_eq
  parent v hv := by
    rw [← h.toFinset_eq, List.mem_toFinset] at hv
    obtain ⟨u, ⟨hu, harc⟩, hparent⟩ := h.claimed v hv
    exact ⟨u, hu, harc, hparent⟩
  kept v hv := by
    rw [← h.toFinset_eq, List.mem_toFinset] at hv
    exact h.kept v hv

/-- The window of a queue lists a set of vertices, each of them once, and nothing is pending behind it. -/
def WindowQueue.ShowsSet (q : WindowQueue) (members : Finset Nat) : Prop :=
  ∃ window, q.Shows window ∧ window.Nodup ∧ window.toFinset = members

/-- A window that lists a set becomes the bits that hold it, whatever the bitmap held before. -/
theorem bitmapOfWindow_holds {n : Nat} {queue : WindowQueue} {bitmap : Bitmap}
    (hqueue : queue.ShowsSet members) (hmembers : ∀ u ∈ members, u < n) (hroom : n ≤ bitmap.room) :
    Yields (bitmapOfWindow queue bitmap) (·.Holds n (· ∈ members)) := by
  obtain ⟨window, hshows, _, rfl⟩ := hqueue
  have hlt (u : Nat) (hu : u ∈ window) := hmembers u (List.mem_toFinset.mpr hu)
  apply (bitmapOfWindow_yields hshows hlt hroom).mono
  intro bitmap hbitmap
  exact hbitmap.congr fun v => List.mem_toFinset.symm

/-- Bits that hold a set become the window that lists it, if there is room behind the last window. -/
theorem windowOfBitmap_showsSet {n : Nat} {bitmap : Bitmap} {queue : WindowQueue} {shown : List Nat}
    (hholds : bitmap.Holds n (· ∈ members)) (hmembers : ∀ u ∈ members, u < n) (hshows : queue.Shows shown)
    (hroom : queue.tail + members.card ≤ queue.capacity) :
    Yields (windowOfBitmap n bitmap queue) (·.ShowsSet members) := by
  have hnodup : ((List.range n).filter bitmap.contains).Nodup := List.nodup_range.filter _
  have hset : ((List.range n).filter bitmap.contains).toFinset = members := by
    ext v
    rw [List.mem_toFinset, List.mem_filter, List.mem_range, hholds.contains_iff, and_iff_right_iff_imp]
    exact hmembers v
  have hlength : ((List.range n).filter bitmap.contains).length = members.card := by
    rw [← List.toFinset_card_of_nodup hnodup, hset]
  apply (windowOfBitmap_yields hholds hshows (hlength.symm ▸ hroom)).mono
  intro next hnext
  exact ⟨_, hnext.1, hnodup, hset⟩

/-- In a built graph a top-down step and a bottom-up step from the same frontier visit the same vertices.
The one lists them in its queue, the other holds them in its bitmap and counts them, and a frontier in
either form can be turned into the other one. -/
theorem pushLevel_pullLevel_visit_alike {o : BuildOptions} {edges : List Edge} {queue : WindowQueue}
    {front spare : Bitmap} (hbuild : Graph.build o edges = .ok g) (hsize : marks.size = g.numVertices)
    (hfrontier : ∀ u ∈ frontier, u < g.numVertices) (hqueue : queue.ShowsSet frontier)
    (hroom : queue.tail + (unvisited marks).card ≤ queue.capacity)
    (hfront : front.Holds g.numVertices (· ∈ frontier)) (hspare : g.numVertices ≤ spare.room) :
    Yields (pushLevel g marks queue) (fun (after, next, _) =>
      Adopts g frontier (g.nextLevel marks frontier) marks after ∧
        next.ShowsSet (g.nextLevel marks frontier)) ∧
    Yields (pullLevel g marks front spare) (fun step =>
      Adopts g frontier (g.nextLevel marks frontier) marks step.parents ∧
        step.next.Holds g.numVertices (· ∈ g.nextLevel marks frontier) ∧
        step.awake = (g.nextLevel marks frontier).card) ∧
    Yields (bitmapOfWindow queue spare) (·.Holds g.numVertices (· ∈ frontier)) ∧
    ∀ (members : Finset Nat) (bitmap : Bitmap) (other : WindowQueue) (shown : List Nat),
      (∀ u ∈ members, u < g.numVertices) → bitmap.Holds g.numVertices (· ∈ members) →
      other.Shows shown → other.tail + members.card ≤ other.capacity →
      Yields (windowOfBitmap g.numVertices bitmap other) (·.ShowsSet members) := by
  have hwell := Graph.wellFormed_build hbuild
  have hmirrored := Graph.mirrored_build hbuild
  refine ⟨?_, ?_, bitmapOfWindow_holds hqueue hfrontier hspare, ?_⟩
  · obtain ⟨window, hshows, _, rfl⟩ := hqueue
    have hlt (u : Nat) (hu : u ∈ window) := hfrontier u (List.mem_toFinset.mpr hu)
    apply (pushLevel_yields hwell hsize hshows hlt hroom).mono
    intro (after, next, _) hstep
    obtain ⟨awake, hfills, hnext, _⟩ := hstep
    have hout := hfills.congr fun u v => and_congr_left' List.mem_toFinset.symm
    exact ⟨hout.adopts, awake, hnext, hout.nodup, hout.toFinset_eq⟩
  · apply (pullLevel_yields hwell hsize hfront hspare).mono
    intro step hstep
    obtain ⟨awake, hfills, hnext, hcount⟩ := hstep
    have hout := hfills.congr fun u v => and_congr_right' (hmirrored.mem_sources_iff hwell)
    refine ⟨hout.adopts, hnext.congr fun v => ?_, ?_⟩
    · rw [← hout.toFinset_eq, List.mem_toFinset]
    · rw [← hout.toFinset_eq, List.toFinset_card_of_nodup hout.nodup, hcount]
  · intro members bitmap other shown hmembers hholds hshows hfits
    exact windowOfBitmap_showsSet hholds hmembers hshows hfits

/-- The second level of a directed graph with parallel arcs and a loop. The bitmap to be filled still holds
the source. -/
theorem pushLevel_pullLevel_visit_alike_parallel :
    ∃ g, Graph.build {} [⟨0, 1, 1⟩, ⟨0, 1, 2⟩, ⟨0, 2, 1⟩, ⟨1, 2, 1⟩, ⟨2, 3, 1⟩, ⟨3, 3, 5⟩, ⟨1, 4, 1⟩] = .ok g ∧
      WindowQueue.ShowsSet ⟨#[0, 2, 1, 0, 0], 3, 1, 3⟩ {1, 2} ∧
      Bitmap.Holds ⟨#[6], 5⟩ g.numVertices (· ∈ ({1, 2} : Finset Nat)) ∧
      g.nextLevel #[0, 0, 0, -1, -1] {1, 2} = {3, 4} ∧
      Yields (pushLevel g #[0, 0, 0, -1, -1] ⟨#[0, 2, 1, 0, 0], 3, 1, 3⟩) (fun (after, next, _) =>
        Adopts g {1, 2} (g.nextLevel #[0, 0, 0, -1, -1] {1, 2}) #[0, 0, 0, -1, -1] after ∧
          next.ShowsSet (g.nextLevel #[0, 0, 0, -1, -1] {1, 2})) ∧
      Yields (pullLevel g #[0, 0, 0, -1, -1] ⟨#[6], 5⟩ ⟨#[1], 5⟩) (fun step =>
        Adopts g {1, 2} (g.nextLevel #[0, 0, 0, -1, -1] {1, 2}) #[0, 0, 0, -1, -1] step.parents ∧
          step.next.Holds g.numVertices (· ∈ g.nextLevel #[0, 0, 0, -1, -1] {1, 2}) ∧
          step.awake = (g.nextLevel #[0, 0, 0, -1, -1] {1, 2}).card) := by
  refine ⟨_, rfl, ?_⟩
  have hbuild : Graph.build {} [⟨0, 1, 1⟩, ⟨0, 1, 2⟩, ⟨0, 2, 1⟩, ⟨1, 2, 1⟩, ⟨2, 3, 1⟩, ⟨3, 3, 5⟩,
      ⟨1, 4, 1⟩] = .ok _ := rfl
  have hqueue : WindowQueue.ShowsSet ⟨#[0, 2, 1, 0, 0], 3, 1, 3⟩ {1, 2} :=
    ⟨[2, 1], by constructor <;> decide, by decide, by decide⟩
  have hempty : (Bitmap.clear 5).Holds 5 fun _ => False := Bitmap.holds_reset (b := .clear 5) (by decide)
  have hfront : Bitmap.Holds ⟨#[6], 5⟩ 5 (· ∈ ({1, 2} : Finset Nat)) := by
    obtain ⟨first, hfirst, hholds⟩ := hempty.set_yields (v := 1) (by decide)
    obtain ⟨second, hsecond, hholds⟩ := hholds.set_yields (v := 2) (by decide)
    have hset : ((Bitmap.clear 5).set 1 >>= (·.set 2)) = .ok ⟨#[6], 5⟩ := by decide
    rw [hfirst, ok_bind, hsecond] at hset
    cases hset
    exact hholds.congr fun v => by simp
  have hsize : (#[0, 0, 0, -1, -1] : Array Int).size = 5 := rfl
  have hspare : 5 ≤ Bitmap.room ⟨#[1], 5⟩ := by decide
  have halike := pushLevel_pullLevel_visit_alike hbuild hsize (by decide) hqueue (by decide) hfront hspare
  exact ⟨hqueue, hfront, by decide, halike.1, halike.2.1⟩

end GraphKernels
