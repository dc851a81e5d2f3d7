import GraphKernels.Proofs.Arithmetic
import GraphKernels.Proofs.Centrality.Lockstep
import GraphKernels.Proofs.Centrality.Settling

/-!
# The level index of path counting

Path counting leaves three things to the settling of shares: a queue with all vertices that can be reached,
an index of where each level starts in it, and marks on the arcs that lead one level down. They describe the
levels of the source exactly, whatever numbers the counts are and whatever arithmetic adds them up.
-/

namespace GraphKernels

namespace PathCounting

variable {N W : Type} {ops : ScoreArithmetic N W} {g : Graph} {source : Nat} {s t : PathCounting W}
  {levels : List (List Nat)} {related : W → W → Prop} {room : Nat}

/-- The queue, the marks and the level index are empty, and there is room in them. The counts may hold any
numbers. -/
structure Vacant (g : Graph) (s : PathCounting W) : Prop where
  counts_size : s.counts.size = g.numVertices
  successors : s.successors.Holds g.numArcs fun _ => False
  tail_eq : s.queue.tail = 0
  windowEnd_eq : s.queue.windowEnd = 0
  capacity_eq : s.queue.capacity = g.numVertices
  levelStarts_eq : s.levelStarts = #[]

/-- The index has an entry more than there are levels, the queue holds each level between two entries, and
the marked arcs are those that lead one level down. -/
structure Indexed (g : Graph) (source : Nat) (s : PathCounting W) : Prop where
  capacity_eq : s.queue.capacity = g.numVertices
  tail_le : s.queue.tail ≤ s.queue.capacity
  ascends : s.levelStarts.toList.Pairwise (· < ·)
  size_eq : (s.levelStarts.size : ℕ∞) = {d | ∃ v, g.AtDepth source d v}.encard + 1
  level : ∀ d, d + 1 < s.levelStarts.size → ∃ items,
    s.queue.range (s.levelStarts.getD d 0) (s.levelStarts.getD (d + 1) 0) = .ok items ∧
      IsLevel g source d items
  marks : s.successors.Holds g.numArcs fun e => ∃ u v, g.ArcAt e u v ∧ g.Descends source u v

namespace Counted

/-- The levels that have vertices are the expanded ones. -/
theorem exists_atDepth_iff (h : s.Counted ops g source levels) (d : Nat) :
    (∃ v, g.AtDepth source d v) ↔ d < levels.length := by
  constructor
  · intro ⟨v, hv⟩
    exact (h.level d).lt_length hv
  · intro hd
    have hlevel := h.level d
    rw [List.getD_eq_getElem _ _ hd] at hlevel
    obtain ⟨v, hv⟩ := List.exists_mem_of_ne_nil _ (h.nonempty _ (List.getElem_mem hd))
    exact ⟨v, (hlevel.mem_iff v).mp hv⟩

/-- There are as many levels as expanded ones. -/
theorem encard_levels (h : s.Counted ops g source levels) :
    {d | ∃ v, g.AtDepth source d v}.encard = levels.length := by
  have hset : {d | ∃ v, g.AtDepth source d v} = (Finset.range levels.length : Set Nat) := by
    ext d
    rw [Set.mem_ofPred_eq, h.exists_atDepth_iff, Finset.mem_coe, Finset.mem_range]
  rw [hset, Set.encard_coe_eq_coe_finsetCard, Finset.card_range]

/-- A count that is alike to one that has ended is indexed. -/
theorem indexed (h : s.Counted ops g source levels) (halike : Alike related room s t) : t.Indexed g source where
  capacity_eq := halike.queue.capacity_eq.trans h.capacity_eq
  tail_le := by
    rw [halike.queue.tail_eq, halike.queue.capacity_eq]
    exact h.tail_le
  ascends := by
    rw [halike.levelStarts_eq, h.starts_eq]
    apply runningSums_pairwise
    intro size hsize
    obtain ⟨items, hitems, rfl⟩ := List.mem_map.mp hsize
    exact List.length_pos_iff.mpr (h.nonempty items hitems)
  size_eq := by
    rw [halike.levelStarts_eq, h.encard_levels, ← Array.length_toList, h.starts_eq, runningSums_length,
      List.length_map]
    rfl
  level := by
    have hroom : t.queue.tail ≤ t.queue.capacity := by
      rw [halike.queue.tail_eq, halike.queue.capacity_eq]
      exact h.tail_le
    have hhistory := halike.queue.history_eq.trans h.history_eq
    intro d hd
    rw [halike.levelStarts_eq, ← Array.length_toList, h.starts_eq, runningSums_length, List.length_map] at hd
    have hd : d < levels.length := Nat.lt_of_succ_lt_succ hd
    have hlevel := h.level d
    rw [List.getD_eq_getElem _ _ hd] at hlevel
    refine ⟨levels[d], ?_, hlevel⟩
    have hstart (k : Nat) : t.levelStarts.getD k 0 = (runningSums 0 (levels.map List.length)).getD k 0 := by
      rw [halike.levelStarts_eq, ← h.starts_eq]
      simp
    rw [hstart, hstart]
    exact WindowQueue.range_level hroom hhistory hd
  marks := halike.successors.holds h.marks_descending

end Counted

/-- Counting from a source of a built graph ends, and there is room for all that it publishes. Whatever the
counts were before, its queue, its level index and its marks then describe the levels of the source. -/
theorem ofSource_indexed {o : BuildOptions} {edges : List Edge} (ops : ScoreArithmetic N W)
    (hbuild : Graph.build o edges = .ok g) (hsource : source < g.numVertices) (h : s.Vacant g) :
    ∃ last, s.ofSource ops g source = .ok last ∧ last.Indexed g source := by
  -- The run goes side by side with one whose counts are clear.
  have hfresh : Fresh ops g { s with counts := Array.replicate g.numVertices ops.wideZero } :=
    ⟨rfl, h.successors, h.tail_eq, h.windowEnd_eq, h.capacity_eq, h.levelStarts_eq⟩
  have hcounts : Pairs (fun _ _ => True) (Array.replicate g.numVertices ops.wideZero) s.counts :=
    ⟨by rw [Array.size_replicate, h.counts_size], fun _ _ _ => trivial⟩
  have hqueue : s.queue.Alike s.queue :=
    .refl (h.tail_eq.symm ▸ Nat.zero_le _) (h.windowEnd_eq.trans h.tail_eq.symm).le
  have hrun := ofSource_yields hfresh (Graph.wellFormed_build hbuild) hsource
  have hside := ofSource_simulates
    (s := { s with counts := Array.replicate g.numVertices ops.wideZero }) (t := s)
    (additive_true ops) g source hcounts ⟨rfl, rfl, fun _ => rfl⟩ hqueue rfl
  obtain ⟨last, hlast, _, _, ⟨levels, hcounted⟩, halike⟩ := hside.yields hrun
  exact ⟨last, hlast, hcounted.indexed halike⟩

/-- Two arcs side by side, two ways to one vertex, an arc within a level, one that leads back up, and a vertex
that cannot be reached. The counts and the slots of the queue hold what is left of another source. -/
theorem ofSource_indexed_stale :
    ∃ g, Graph.build { numVertices := some 5 }
        [⟨0, 1, 1⟩, ⟨0, 1, 2⟩, ⟨0, 2, 1⟩, ⟨1, 2, 1⟩, ⟨1, 3, 1⟩, ⟨2, 3, 1⟩, ⟨3, 0, 1⟩] = .ok g ∧
      ∃ s : PathCounting (Option ℚ), s.counts = #[some 7, none, some 2, some 1, some 0] ∧
        s.queue.slots = #[4, 3, 3, 1, 0] ∧ s.Vacant g ∧
        ∃ last, s.ofSource .exact g 0 = .ok last ∧ last.Indexed g 0 ∧
          last.levelStarts = #[0, 1, 3, 4] ∧ last.queue.slots = #[0, 1, 2, 3, 0] ∧
          (List.range 7).map last.successors.contains = [true, true, true, false, true, true, false] := by
  let s : PathCounting (Option ℚ) := {
    depths := #[]
    counts := #[some 7, none, some 2, some 1, some 0]
    successors := Bitmap.reset ⟨#[41], 7⟩
    queue := ⟨#[4, 3, 3, 1, 0], 0, 0, 0⟩
    levelStarts := #[] }
  obtain ⟨g, hbuild, hcount, harcs, hleft⟩ : ∃ g, Graph.build { numVertices := some 5 }
      [⟨0, 1, 1⟩, ⟨0, 1, 2⟩, ⟨0, 2, 1⟩, ⟨1, 2, 1⟩, ⟨1, 3, 1⟩, ⟨2, 3, 1⟩, ⟨3, 0, 1⟩] = .ok g ∧
      g.numVertices = 5 ∧ g.numArcs = 7 ∧ (s.ofSource .exact g 0).toOption.map
        (fun last => (last.levelStarts, last.queue.slots, (List.range 7).map last.successors.contains)) =
          some (#[0, 1, 3, 4], #[0, 1, 2, 3, 0], [true, true, true, false, true, true, false]) :=
    ⟨_, rfl, rfl, rfl, by decide +kernel⟩
  have hvacant : s.Vacant g :=
    ⟨hcount.symm, Bitmap.holds_reset (by rw [harcs]; decide), rfl, rfl, hcount.symm, rfl⟩
  have hsource : 0 < g.numVertices := by
    rw [hcount]
    decide
  obtain ⟨last, hlast, hindexed⟩ := ofSource_indexed .exact hbuild hsource hvacant
  rw [hlast, Except.toOption, Option.map_some, Option.some.injEq, Prod.mk.injEq, Prod.mk.injEq] at hleft
  exact ⟨g, hbuild, s, rfl, rfl, hvacant, last, hlast, hindexed, hleft⟩

end PathCounting

end GraphKernels
