import GraphKernels.Proofs.Arithmetic
import GraphKernels.Proofs.Centrality.Agreement
import GraphKernels.Proofs.Centrality.Lockstep
import GraphKernels.Proofs.Centrality.Share

/-!
# One workspace for all sources

The sources of a run share one workspace. It is cleared in parts, and the slots of its queue are not cleared at
all, but nothing of one source reaches the next: every source adds to the scores what it would add if the
workspace were made for it alone, whatever the operations on scores are.
-/

namespace GraphKernels

variable {N W : Type} {ops : ScoreArithmetic N W} {g : Graph} {source : Nat}

namespace Graph

/-- The shares of the vertices over one source, in a workspace that is made for it alone. -/
def sharesAlone (ops : ScoreArithmetic N W) (g : Graph) (source : Nat) : Except Fault (Array N) := do
  let w : CentralityWorkspace N W := .start ops g
  let paths ← w.paths.ofSource ops g source
  return (← w.shares.settleAll ops g paths).shares

/-- Scores to which the shares of the vertices that can be reached from a source are added. -/
noncomputable def addShares (ops : ScoreArithmetic N W) (g : Graph) (source : Nat)
    (shares scores : Array N) : Array N :=
  scores.mapIdx fun u score =>
    if g.Reachable source u then ops.add score (shares.getD u ops.zero) else score

/-- The scores with those of one more source, whose shares are computed alone. -/
noncomputable def addAlone (ops : ScoreArithmetic N W) (g : Graph) (scores : Array N) (source : Nat) :
    Except Fault (Array N) := do
  return g.addShares ops source (← g.sharesAlone ops source) scores

/-- Only the shares of vertices that can be reached are added. -/
theorem addShares_congr {shares others : Array N}
    (h : ∀ u, g.Reachable source u → shares.getD u ops.zero = others.getD u ops.zero) (scores : Array N) :
    g.addShares ops source shares scores = g.addShares ops source others scores := by
  rw [addShares, addShares]
  congr 1
  funext u score
  split
  · next hu => rw [h u hu]
  · rfl

end Graph

namespace Shares

variable {counts : Array W} {before : Array N} {levels : List (List Nat)} {t : Shares N}

/-- Settling all levels adds the settled shares to the scores. -/
theorem Settles.scores_eq_addShares
    (h : t.Settles ops g source counts before levels.reverse.flatten)
    (hlevel : ∀ d, IsLevel g source d (levels.getD d [])) (hsize : before.size = g.numVertices) :
    t.scores = g.addShares ops source t.shares before := by
  have hdone (u : Nat) : u ∈ levels.reverse.flatten ↔ g.Reachable source u :=
    IsLevel.mem_flatten_reverse hlevel
  apply eq_of_getElem?_eq h.scores_size (by rw [Graph.addShares, Array.size_mapIdx, hsize])
  intro u hu
  rw [Graph.addShares, Array.getElem?_mapIdx, getElem?_eq_getD ops.zero (h.scores_size.symm ▸ hu),
    getElem?_eq_getD ops.zero (hsize.symm ▸ hu), Option.map_some, Option.some.injEq]
  split
  · next hreachable => exact h.scores_eq u ((hdone u).mpr hreachable)
  · next hunreachable => exact h.kept u fun hu => hunreachable ((hdone u).mp hu)

end Shares

namespace CentralityWorkspace

variable {w : CentralityWorkspace N W}

/-- A new workspace is clear. -/
theorem fresh_start (ops : ScoreArithmetic N W) (g : Graph) : (start ops g).paths.Fresh ops g where
  counts_eq := rfl
  successors := ⟨Bitmap.le_room_clear _, fun e => by
    change (Bitmap.clear g.numArcs).contains e = true ↔ False
    simp⟩
  tail_eq := rfl
  windowEnd_eq := rfl
  capacity_eq := Array.size_replicate
  levelStarts_eq := rfl

/-- The marks have the room that is made for the arcs of the graph. -/
def KeepsRoom (g : Graph) (w : CentralityWorkspace N W) : Prop :=
  w.paths.successors.room = (Bitmap.clear g.numArcs).room

/-- In a workspace that is cleared, path counting goes side by side with one in a new workspace. -/
theorem Ready.ofSource_simulates (h : w.Ready g) (hroom : w.KeepsRoom g) (ops : ScoreArithmetic N W)
    (source : Nat) : Simulates (PathCounting.Alike Eq (Bitmap.clear g.numArcs).room)
      ((start ops g).paths.ofSource ops g source) ((w.cleared ops).paths.ofSource ops g source) := by
  have hcounts : Pairs Eq (start ops g).paths.counts (w.cleared ops).paths.counts := by
    rw [h.fresh.counts_eq]
    exact ⟨rfl, fun _ _ _ => rfl⟩
  have hsuccessors : Bitmap.Alike (Bitmap.clear g.numArcs).room (start ops g).paths.successors
      (w.cleared ops).paths.successors :=
    ⟨rfl, (Bitmap.room_reset _).trans hroom, fun e =>
      (Bitmap.contains_reset _ e).trans (Bitmap.contains_clear _ e).symm⟩
  have hqueue : (start ops g).paths.queue.Alike (w.cleared ops).paths.queue :=
    .reset (q := .withCapacity g.numVertices) (h.capacity_eq.trans Array.size_replicate.symm)
  exact PathCounting.ofSource_simulates (additive_eq ops) g source hcounts hsuccessors hqueue rfl

/-- The paths that a source leaves in the workspace are counted once the workspace is cleared. -/
theorem ofSource_of_process {next : CentralityWorkspace N W} (h : w.process ops g source = .ok next) :
    (w.cleared ops).paths.ofSource ops g source = .ok next.paths := by
  obtain ⟨paths, hpaths, h⟩ := bind_eq_ok_iff.mp h
  obtain ⟨shares, _, h⟩ := bind_eq_ok_iff.mp h
  cases h
  exact hpaths

/-- A source that is processed in a workspace that others have used adds what it adds alone. -/
theorem Ready.process_alone (h : w.Ready g) (hroom : w.KeepsRoom g) (hwell : g.WellFormed)
    (hsource : source < g.numVertices) :
    Yields (w.process ops g source) fun next => next.Ready g ∧ next.KeepsRoom g ∧
      g.addAlone ops w.shares.scores source = .ok next.shares.scores := by
  have hstart := ready_start ops g
  have hprocess : Yields (w.process ops g source) _ := process_yields h hwell hsource
  obtain ⟨next, hnext, hready, levels, hcounted, hsettles⟩ := hprocess
  -- The run alone ends as well, and it goes side by side with the other one.
  obtain ⟨alone, halone, levels', hcounted'⟩ :=
    PathCounting.ofSource_yields (fresh_start ops g) hwell hsource
  obtain ⟨t, ht, hsettles'⟩ := Shares.settleAll_yields (t := (start ops g).shares) hcounted' hwell hsource
    hstart.shares_size hstart.scores_size
  have hshares : g.sharesAlone ops source = .ok t.shares := by
    rw [Graph.sharesAlone, halone, ok_bind, ht]
    rfl
  obtain ⟨paths, hpaths, halike⟩ := h.ofSource_simulates hroom ops source alone halone
  cases hpaths.symm.trans (ofSource_of_process hnext)
  have hcounts : alone.counts = next.paths.counts := halike.counts.eq.symm
  have hequal (u : Nat) (hu : g.Reachable source u) :
      t.shares.getD u ops.zero = next.shares.shares.getD u ops.zero :=
    hsettles'.share_eq_share hsettles hcounted'.level (fun _ => IsLevel.mem_flatten_reverse hcounted'.level)
      (fun _ => IsLevel.mem_flatten_reverse hcounted.level) (fun _ _ _ => by rw [hcounts]) hu.atDepth_hops
  refine ⟨next, hnext, hready, halike.successors.room_eq', ?_⟩
  rw [Graph.addAlone, hshares, hsettles.scores_eq_addShares hcounted.level h.scores_size,
    ← Graph.addShares_congr hequal]
  rfl

end CentralityWorkspace

/-- Some sources of a built graph, in one workspace, add up to the scores that each of them adds in a workspace
of its own: whatever the operations on scores are, no source sees what is left of another one. -/
theorem accumulateCentrality_eq_alone {o : BuildOptions} {edges : List Edge} {sources : List Nat}
    (ops : ScoreArithmetic N W) (hbuild : Graph.build o edges = .ok g)
    (hsources : ∀ source ∈ sources, source < g.numVertices) :
    ∃ w, g.accumulateCentrality ops sources = .ok w ∧
      sources.foldlM (g.addAlone ops) (Array.replicate g.numVertices ops.zero) = .ok w.shares.scores := by
  have hrun : Yields (g.accumulateCentrality ops sources) fun w => w.Ready g ∧ w.KeepsRoom g ∧
      sources.foldlM (g.addAlone ops) (Array.replicate g.numVertices ops.zero) = .ok w.shares.scores := by
    apply Yields.foldlM fun (done : List Nat) (w : CentralityWorkspace N W) => w.Ready g ∧ w.KeepsRoom g ∧
      done.foldlM (g.addAlone ops) (Array.replicate g.numVertices ops.zero) = .ok w.shares.scores
    · exact ⟨CentralityWorkspace.ready_start ops g, rfl, rfl⟩
    · intro done source rest w hitems ⟨hready, hroom, hscores⟩
      have hsource := hsources source (by simp [hitems])
      apply (hready.process_alone hroom (Graph.wellFormed_build hbuild) hsource).mono
      intro next ⟨hnext, hroom, hadds⟩
      refine ⟨hnext, hroom, ?_⟩
      rw [List.foldlM_append, hscores, ok_bind, List.foldlM_cons, hadds]
      rfl
  obtain ⟨w, hw, _, _, hscores⟩ := hrun
  exact ⟨w, hw, hscores⟩

/-- Sources that reach different vertices, one of them twice, over two arcs side by side and two ways to one
vertex. The last one reaches nothing, and the slots of the queue still hold the vertices of the others. -/
theorem accumulateCentrality_eq_alone_overlapping :
    ∃ g, Graph.build { numVertices := some 5 }
        [⟨0, 1, 1⟩, ⟨0, 1, 2⟩, ⟨0, 2, 1⟩, ⟨1, 3, 1⟩, ⟨2, 3, 1⟩] = .ok g ∧
      (∀ source ∈ [0, 2, 0, 4], source < g.numVertices) ∧
      ∃ w, g.accumulateCentrality .exact [0, 2, 0, 4] = .ok w ∧
        [0, 2, 0, 4].foldlM (g.addAlone .exact) (Array.replicate g.numVertices ScoreArithmetic.exact.zero) =
          .ok w.shares.scores ∧
        w.shares.scores = #[some 6, some (4 / 3), some (5 / 3), some 0, some 0] ∧
        w.paths.queue.slots = #[4, 1, 2, 3, 0] := by
  obtain ⟨g, hbuild, hcount, hleft⟩ : ∃ g, Graph.build { numVertices := some 5 }
      [⟨0, 1, 1⟩, ⟨0, 1, 2⟩, ⟨0, 2, 1⟩, ⟨1, 3, 1⟩, ⟨2, 3, 1⟩] = .ok g ∧ g.numVertices = 5 ∧
      (g.accumulateCentrality .exact [0, 2, 0, 4]).toOption.map
        (fun w => (w.shares.scores, w.paths.queue.slots)) =
          some (#[some 6, some (4 / 3), some (5 / 3), some 0, some 0], #[4, 1, 2, 3, 0]) :=
    ⟨_, rfl, rfl, by decide +kernel⟩
  have hsources : ∀ source ∈ [0, 2, 0, 4], source < g.numVertices := by
    rw [hcount]
    decide
  obtain ⟨w, hw, hscores⟩ := accumulateCentrality_eq_alone .exact hbuild hsources
  rw [hw, Except.toOption, Option.map_some, Option.some.injEq, Prod.mk.injEq] at hleft
  exact ⟨g, hbuild, hsources, w, hw, hscores, hleft⟩

end GraphKernels
