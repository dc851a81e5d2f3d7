import GraphKernels.Proofs.Centrality.PathCounting

/-!
# Settling levels backwards

Once the paths from a source are counted, the levels are read back from the queue and settled from the
furthest one up. A vertex is settled with what its successors hand back, and no vertex that is settled
later is among them, so what is said of a settled vertex stays true until all are settled.
-/

namespace GraphKernels

variable {N W : Type} {ops : ScoreArithmetic N W} {g : Graph} {source u v : Nat}
  {levels : List (List Nat)}

/-! ### Levels in the queue -/

/-- The ranges between running sums of lengths hold the lists of these lengths. -/
theorem WindowQueue.forall₂_range {q : WindowQueue} (h : q.tail ≤ q.capacity) (front : List Nat)
    (levels : List (List Nat)) (hhistory : q.history = front ++ levels.flatten) :
    List.Forall₂ (fun (span : Nat × Nat) items => q.range span.1 span.2 = .ok items)
      ((runningSums front.length (levels.map List.length)).zip
        (runningSums front.length (levels.map List.length)).tail) levels := by
  induction levels generalizing front with
  | nil => exact .nil
  | cons items rest ih =>
    have hnext : q.history = (front ++ items) ++ rest.flatten := by
      rw [hhistory, List.flatten_cons, List.append_assoc]
    have hspans := ih (front ++ items) hnext
    have htail := history_length h
    rw [hnext, List.length_append, List.length_append] at htail
    rw [List.length_append] at hspans
    rw [List.map_cons, runningSums, List.tail_cons, runningSums_eq_cons (front.length + items.length),
      List.zip_cons_cons, ← runningSums_eq_cons]
    refine .cons ?_ hspans
    rw [range_eq (Nat.le_add_right _ _) (by omega) h, hnext, ← List.length_append, List.take_left,
      List.drop_left]

/-- The range between two successive running sums of lengths holds the list of that length. -/
theorem WindowQueue.range_level {q : WindowQueue} (h : q.tail ≤ q.capacity) {levels : List (List Nat)}
    (hhistory : q.history = levels.flatten) {d : Nat} (hd : d < levels.length) :
    q.range ((runningSums 0 (levels.map List.length)).getD d 0)
      ((runningSums 0 (levels.map List.length)).getD (d + 1) 0) = .ok levels[d] := by
  obtain ⟨hlength, hspan⟩ := List.forall₂_iff_get.mp (forall₂_range h [] levels hhistory)
  have hd' : d + 1 < (runningSums 0 (levels.map List.length)).length := by simpa using hd
  have hlevel := hspan d (hlength.symm ▸ hd) hd
  simp only [List.get_eq_getElem, List.length_nil, List.getElem_zip, List.getElem_tail] at hlevel
  rwa [List.getD_eq_getElem _ _ hd', List.getD_eq_getElem _ _ (Nat.lt_of_succ_lt hd')]

namespace Graded

/-- Going through the levels from the furthest one up, no vertex comes again, and none comes before one
of its successors. -/
theorem pairwise_reverse (h : Graded g source levels) :
    levels.reverse.flatten.Pairwise fun u v => u ≠ v ∧ ¬ g.Descends source u v := by
  rw [List.pairwise_flatten]
  constructor
  · intro items hitems
    obtain ⟨d, hd, rfl⟩ := List.getElem_of_mem (List.mem_reverse.mp hitems)
    rw [← List.getD_eq_getElem levels [] hd]
    refine (h d).1.imp_of_mem fun hu hv hne => ⟨hne, fun hdescends => ?_⟩
    have hnext := ((h d).2 _ hu).descends_iff.mp hdescends
    have := hnext.unique ((h d).2 _ hv)
    omega
  · rw [List.pairwise_reverse]
    refine h.pairwise_getElem.imp fun hlt u hu v hv => ?_
    obtain ⟨k, d, hkd, hv, hu⟩ := hlt v hv u hu
    constructor
    · intro heq
      subst heq
      have := hv.unique hu
      omega
    · intro hdescends
      have := (hu.descends_iff.mp hdescends).unique hv
      omega

end Graded

namespace PathCounting.Counted

variable {s : PathCounting W} {position : Nat}

/-- The queue holds the vertices that can be reached. -/
theorem mem_flatten (h : s.Counted ops g source levels) :
    u ∈ levels.flatten ↔ g.Reachable source u := IsLevel.mem_flatten h.level

/-- The marked arcs are those that lead one level down. -/
theorem marks_descending (h : s.Counted ops g source levels) :
    s.successors.Holds g.numArcs fun e => ∃ u v, g.ArcAt e u v ∧ g.Descends source u v := by
  apply h.passes.marks.congr
  intro e
  constructor
  · intro ⟨a, ha, heq⟩
    subst heq
    obtain ⟨ha, hdescends⟩ := List.mem_filter.mp ha
    obtain ⟨u, _, ha⟩ := List.mem_flatMap.mp ha
    obtain ⟨rfl, harc⟩ := Graph.mem_placedArcs.mp ha
    exact ⟨_, _, harc, of_decide_eq_true hdescends⟩
  · intro ⟨u, v, harc, hdescends⟩
    have hmem : u ∈ levels.flatten := by
      obtain ⟨d, hu, _⟩ := hdescends
      exact h.mem_flatten.mpr (Graph.reachable_iff_exists_atDepth.mpr ⟨d, hu⟩)
    exact ⟨⟨u, v, e⟩, List.mem_filter.mpr ⟨List.mem_flatMap.mpr
      ⟨u, hmem, Graph.mem_placedArcs.mpr ⟨rfl, harc⟩⟩, decide_eq_true hdescends⟩, rfl⟩

/-- An arc is marked exactly when it leads one level down. -/
theorem get_eq (h : s.Counted ops g source levels) (hwell : g.WellFormed)
    (harc : g.ArcAt position u v) : s.successors.get position = .ok (decide (g.Descends source u v)) := by
  rw [h.marks_descending.get_eq (harc.lt_numArcs hwell), Except.ok.injEq, Bool.eq_iff_iff,
    h.marks_descending.contains_iff, decide_eq_true_eq]
  constructor
  · intro ⟨_, _, harc', hdescends⟩
    obtain ⟨rfl, rfl⟩ := harc.unique harc' hwell
    exact hdescends
  · intro hdescends
    exact ⟨u, v, harc, hdescends⟩

end PathCounting.Counted

/-! ### Settling -/

/-- What the successors of a vertex hand back to it, in row order. -/
noncomputable def Graph.handedBack (ops : ScoreArithmetic N W) (g : Graph) (source : Nat)
    (counts : Array W) (shares : Array N) (u : Nat) : N :=
  (g.successors source u).foldl (fun share v => dependency ops share
    (ops.wideDiv (counts.getD u ops.wideZero) (counts.getD v ops.wideZero)) (shares.getD v ops.zero)) ops.zero

/-- What is handed back depends on the shares of the successors only. -/
theorem Graph.handedBack_congr {counts : Array W} {shares others : Array N}
    (h : ∀ v ∈ g.successors source u, shares.getD v ops.zero = others.getD v ops.zero) :
    g.handedBack ops source counts shares u = g.handedBack ops source counts others u := by
  apply List.foldl_ext
  intro share v hv
  rw [h v hv]

namespace Shares

variable {s : PathCounting W} {counts : Array W} {before : Array N} {done : List Nat} {t : Shares N}

/-- Some vertices are settled: each has the share that its successors hand back, and it alone has a score
that is larger by its share. -/
structure Settles (ops : ScoreArithmetic N W) (g : Graph) (source : Nat) (counts : Array W)
    (before : Array N) (done : List Nat) (t : Shares N) : Prop where
  shares_size : t.shares.size = g.numVertices
  scores_size : t.scores.size = g.numVertices
  shares_eq : ∀ u ∈ done, t.shares.getD u ops.zero = g.handedBack ops source counts t.shares u
  scores_eq : ∀ u, u ∈ done →
    t.scores.getD u ops.zero = ops.add (before.getD u ops.zero) (t.shares.getD u ops.zero)
  kept : ∀ u, u ∉ done → t.scores.getD u ops.zero = before.getD u ops.zero

/-- The marked arcs of a vertex give what its successors hand back. -/
theorem gather_yields {shares : Array N} (hcounted : s.Counted ops g source levels)
    (hwell : g.WellFormed) (hsize : shares.size = g.numVertices) :
    Yields ((g.placedTargets u).foldlM (gather ops s shares u) ops.zero)
      (· = g.handedBack ops source s.counts shares u) := by
  rw [Graph.handedBack, Graph.successors, ← Graph.map_fst_placedTargets]
  apply Yields.foldlM fun (seen : List (Nat × Nat)) (share : N) =>
    share = ((seen.map Prod.fst).filter (g.Descends source u)).foldl (fun share v => dependency ops share
      (ops.wideDiv (s.counts.getD u ops.wideZero) (s.counts.getD v ops.wideZero))
      (shares.getD v ops.zero)) ops.zero
  · rfl
  · rintro seen ⟨v, position⟩ rest share hitems hshare
    have harc : g.ArcAt position u v := by simp [Graph.ArcAt, hitems]
    have hhas : g.HasArc u v := Graph.hasArc_iff_exists_arcAt.mpr ⟨_, harc⟩
    have hu := hwell.lt_of_hasArc hhas
    have hv := hwell.lt_of_hasArc' hhas
    rw [gather, hcounted.get_eq hwell harc, ok_bind, List.map_append, List.filter_append,
      List.foldl_append, ← hshare, List.map_singleton, List.filter_singleton]
    by_cases hdescends : g.Descends source u v
    · rw [decide_eq_true hdescends, if_pos rfl,
        readAt_eq_getD ops.wideZero (hcounted.passes.counts_size.symm ▸ hu), ok_bind,
        readAt_eq_getD ops.wideZero (hcounted.passes.counts_size.symm ▸ hv), ok_bind,
        readAt_eq_getD ops.zero (hsize.symm ▸ hv), ok_bind]
      exact .ok rfl
    · rw [decide_eq_false hdescends]
      exact .ok rfl

/-- One more vertex is settled, which no settled one has as a successor. -/
theorem Settles.concat {next : Shares N} (h : t.Settles ops g source counts before done)
    (hnew : ∀ w ∈ done, w ≠ u ∧ ¬ g.Descends source w u)
    (hsize : next.shares.size = g.numVertices) (hsize' : next.scores.size = g.numVertices)
    (hshare : next.shares.getD u ops.zero = g.handedBack ops source counts t.shares u)
    (hscore : next.scores.getD u ops.zero =
      ops.add (t.scores.getD u ops.zero) (next.shares.getD u ops.zero))
    (hshares : ∀ w ≠ u, next.shares.getD w ops.zero = t.shares.getD w ops.zero)
    (hscores : ∀ w ≠ u, next.scores.getD w ops.zero = t.scores.getD w ops.zero) :
    next.Settles ops g source counts before (done ++ [u]) := by
  have hfresh : u ∉ done := fun hu => (hnew u hu).1 rfl
  -- No vertex whose share is already set reads the new one.
  have hreads (w : Nat) (hw : w ∈ done ++ [u]) :
      g.handedBack ops source counts t.shares w = g.handedBack ops source counts next.shares w := by
    refine Graph.handedBack_congr fun v hv => (hshares v ?_).symm
    intro heq
    subst heq
    have hdescends := (Graph.mem_successors.mp hv).2
    rcases List.mem_append.mp hw with hw | hw
    · exact (hnew w hw).2 hdescends
    · obtain ⟨d, hd, hd'⟩ := List.mem_singleton.mp hw ▸ hdescends
      have := hd.unique hd'
      omega
  exact {
    shares_size := hsize
    scores_size := hsize'
    shares_eq := fun w hw => by
      rw [← hreads w hw]
      rcases List.mem_append.mp hw with hw | hw
      · rw [hshares w (hnew w hw).1, h.shares_eq w hw]
      · rw [List.mem_singleton.mp hw, hshare]
    scores_eq := fun w hw => by
      rcases List.mem_append.mp hw with hw | hw
      · rw [hscores w (hnew w hw).1, hshares w (hnew w hw).1, h.scores_eq w hw]
      · rw [List.mem_singleton.mp hw, hscore, h.kept u hfresh]
    kept := fun w hw => by
      rw [List.mem_append, List.mem_singleton, not_or] at hw
      rw [hscores w hw.2, h.kept w hw.1] }

/-- Nothing is settled at first. -/
theorem settles_nil (counts : Array W) {shares scores : Array N} (hshares : shares.size = g.numVertices)
    (hscores : scores.size = g.numVertices) : Settles ops g source counts scores [] ⟨shares, scores⟩ where
  shares_size := hshares
  scores_size := hscores
  shares_eq _ hu := absurd hu List.not_mem_nil
  scores_eq _ hu := absurd hu List.not_mem_nil
  kept _ _ := rfl

/-- Settling one more vertex, which no settled one has as a successor. -/
theorem settle_yields (h : t.Settles ops g source s.counts before done)
    (hcounted : s.Counted ops g source levels) (hwell : g.WellFormed) (hlt : u < g.numVertices)
    (hnew : ∀ w ∈ done, w ≠ u ∧ ¬ g.Descends source w u) :
    Yields (settle ops g s t u) (Settles ops g source s.counts before (done ++ [u])) := by
  have hsize : u < t.shares.size := h.shares_size.symm ▸ hlt
  have hsize' : u < t.scores.size := h.scores_size.symm ▸ hlt
  rw [settle, hwell.positioned_eq hlt, ok_bind]
  apply (gather_yields hcounted hwell h.shares_size).bind
  intro share hshare
  rw [readAt_eq_getD ops.zero hsize', ok_bind, writeAt_eq_setIfInBounds _ hsize, ok_bind,
    writeAt_eq_setIfInBounds _ hsize', ok_bind, Yields.pure_iff]
  apply h.concat hnew
  · rw [Array.size_setIfInBounds, h.shares_size]
  · rw [Array.size_setIfInBounds, h.scores_size]
  · rw [getD_setIfInBounds_self hsize, hshare]
  · rw [getD_setIfInBounds_self hsize', getD_setIfInBounds_self hsize]
  · exact fun w hw => getD_setIfInBounds_of_ne hw
  · exact fun w hw => getD_setIfInBounds_of_ne hw

/-- Settling levels that are read from the queue is settling their vertices. -/
theorem foldlM_settleLevel {spans : List (Nat × Nat)}
    (h : List.Forall₂ (fun span items => s.queue.range span.1 span.2 = .ok items) spans levels) :
    spans.foldlM (settleLevel ops g s) t = levels.flatten.foldlM (settle ops g s) t := by
  induction h generalizing t with
  | nil => rfl
  | cons hspan _ ih =>
    rw [List.foldlM_cons, List.flatten_cons, List.foldlM_append, settleLevel, hspan, ok_bind]
    exact bind_congr fun next => ih

/-- All levels are settled, the furthest one first. -/
theorem settleAll_yields (hcounted : s.Counted ops g source levels) (hwell : g.WellFormed)
    (hsource : source < g.numVertices) (hshares : t.shares.size = g.numVertices)
    (hscores : t.scores.size = g.numVertices) :
    Yields (t.settleAll ops g s) (Settles ops g source s.counts t.scores levels.reverse.flatten) := by
  have hgraded : Graded g source levels := Graded.ofLevels fun d _ => hcounted.level d
  have hspans := WindowQueue.forall₂_range hcounted.tail_le [] levels hcounted.history_eq
  rw [List.length_nil, ← hcounted.starts_eq] at hspans
  rw [settleAll, foldlM_settleLevel (List.forall₂_reverse_iff.mpr hspans)]
  apply Yields.foldlM fun (done : List Nat) (next : Shares N) =>
    next.Settles ops g source s.counts t.scores done
  · exact settles_nil s.counts hshares hscores
  · intro done u rest next hitems hnext
    have hu : u ∈ levels.flatten := by
      have hmem : u ∈ levels.reverse.flatten := by simp [hitems]
      simpa using hmem
    obtain ⟨d, _, _, hdepth⟩ := hgraded.exists_atDepth hu
    have hpairwise := hgraded.pairwise_reverse
    rw [hitems, List.pairwise_append] at hpairwise
    exact settle_yields hnext hcounted hwell (hdepth.lt_numVertices hwell hsource)
      fun w hw => hpairwise.2.2 w hw u List.mem_cons_self

end Shares

/-! ### One source after the other -/

namespace CentralityWorkspace

variable {w : CentralityWorkspace N W}

/-- The parts of the workspace have the sizes that the graph asks for. -/
structure Ready (g : Graph) (w : CentralityWorkspace N W) : Prop where
  counts_size : w.paths.counts.size = g.numVertices
  room_le : g.numArcs ≤ w.paths.successors.room
  capacity_eq : w.paths.queue.capacity = g.numVertices
  shares_size : w.shares.shares.size = g.numVertices
  scores_size : w.shares.scores.size = g.numVertices

/-- A new workspace is ready. -/
theorem ready_start (ops : ScoreArithmetic N W) (g : Graph) : (start ops g).Ready g where
  counts_size := Array.size_replicate
  room_le := Bitmap.le_room_clear _
  capacity_eq := Array.size_replicate
  shares_size := Array.size_replicate
  scores_size := Array.size_replicate

/-- The path counts are fresh once the workspace is cleared. -/
theorem Ready.fresh (h : w.Ready g) : (w.cleared ops).paths.Fresh ops g where
  counts_eq := by
    change w.paths.counts.map (fun _ => ops.wideZero) = _
    rw [Array.map_const', h.counts_size]
  successors := Bitmap.holds_reset h.room_le
  tail_eq := rfl
  windowEnd_eq := rfl
  capacity_eq := h.capacity_eq
  levelStarts_eq := rfl

/-- A source leaves a ready workspace, and adds to the scores what its levels are settled with. -/
theorem process_yields (h : w.Ready g) (hwell : g.WellFormed) (hsource : source < g.numVertices) :
    Yields (w.process ops g source) fun next => next.Ready g ∧ ∃ levels,
      next.paths.Counted ops g source levels ∧
        next.shares.Settles ops g source next.paths.counts w.shares.scores levels.reverse.flatten := by
  have hshares : (w.cleared ops).shares.shares.size = g.numVertices := by
    rw [← h.shares_size]
    exact Array.size_map
  rw [process]
  apply (PathCounting.ofSource_yields h.fresh hwell hsource).bind
  intro paths ⟨levels, hcounted⟩
  apply (Shares.settleAll_yields hcounted hwell hsource hshares h.scores_size).bind
  intro shares hsettles
  refine .ok ⟨?_, levels, hcounted, hsettles⟩
  exact {
    counts_size := hcounted.passes.counts_size
    room_le := hcounted.passes.marks.room_le
    capacity_eq := hcounted.capacity_eq
    shares_size := hsettles.shares_size
    scores_size := hsettles.scores_size }

end CentralityWorkspace

end GraphKernels
