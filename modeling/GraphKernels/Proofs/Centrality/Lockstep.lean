import GraphKernels.Proofs.Centrality.PathCounting

/-!
# Path counting side by side

What path counting reads of its buffers is little: nothing of the slots behind the tail of the queue, and of
the counts nothing but the numbers that it adds up. So two runs from one source, from buffers that agree in
the rest, go through the same vertices and mark the same arcs, and their counts stay related in any way that
additions keep.
-/

namespace GraphKernels

variable {N W : Type} {ops : ScoreArithmetic N W} {g : Graph} {related : W → W → Prop}
  {room : Nat}

/-- Related numbers stay related when they are added, and one is related to itself. -/
structure Additive (ops : ScoreArithmetic N W) (related : W → W → Prop) : Prop where
  one : related ops.wideOne ops.wideOne
  add : ∀ x x' y y', related x x' → related y y' → related (ops.wideAdd x y) (ops.wideAdd x' y')

/-- Equal numbers have equal sums. -/
theorem additive_eq (ops : ScoreArithmetic N W) : Additive ops Eq where
  one := rfl
  add _ _ _ _ hx hy := by rw [hx, hy]

/-- All numbers are related, whatever they are. -/
theorem additive_true (ops : ScoreArithmetic N W) : Additive ops fun _ _ => True :=
  ⟨trivial, fun _ _ _ _ _ _ => trivial⟩

namespace LevelExpansion

variable {e f : LevelExpansion W}

/-- Two expansions have reached the same vertices and marked the same arcs, with related counts. -/
structure Alike (related : W → W → Prop) (room : Nat) (e f : LevelExpansion W) : Prop where
  depths_eq : f.depths = e.depths
  counts : Pairs related e.counts f.counts
  successors : Bitmap.Alike room e.successors f.successors
  claimed : e.claimed.Alike f.claimed

/-- Expansions that are alike reach a vertex alike. -/
theorem reach_simulates (h : Alike related room e f) (depth v : Nat) :
    Simulates (Alike related room) (e.reach depth v) (f.reach depth v) := by
  rw [reach, reach, h.depths_eq]
  apply (Simulates.refl _).bind
  rintro mark _ rfl
  cases mark with
  | some _ => exact .ok h
  | none =>
    apply (Simulates.refl (writeAt e.depths v (some depth))).bind
    rintro depths _ rfl
    apply (h.claimed.push_simulates v).mapError.bind
    intro b c hclaimed
    exact .ok { h with depths_eq := rfl, claimed := hclaimed }

/-- Expansions that are alike follow an arc alike. -/
theorem follow_simulates (hadd : Additive ops related) (h : Alike related room e f) (depth u : Nat)
    (arc : Nat × Nat) : Simulates (Alike related room) (follow ops depth u e arc) (follow ops depth u f arc) := by
  rw [follow, follow]
  apply (reach_simulates h depth arc.1).bind
  intro e f h
  rw [h.depths_eq]
  apply (Simulates.refl _).bind
  rintro mark _ rfl
  split
  · apply (h.counts.readAt_simulates arc.1).bind
    intro x x' hx
    apply (h.counts.readAt_simulates u).bind
    intro y y' hy
    apply (h.successors.set_simulates arc.2).bind
    intro marked marked' hmarked
    apply (h.counts.writeAt_simulates arc.1 (hadd.add x x' y y' hx hy)).bind
    intro counts counts' hcounts
    exact .ok ⟨rfl, hcounts, hmarked, h.claimed⟩
  · exact .ok h

/-- Expansions that are alike follow the arcs of a vertex alike. -/
theorem expand_simulates (hadd : Additive ops related) (h : Alike related room e f) (depth u : Nat) :
    Simulates (Alike related room) (expand ops g depth e u) (expand ops g depth f u) := by
  rw [expand, expand]
  apply (Simulates.refl _).bind
  rintro arcs _ rfl
  exact Simulates.foldlM (fun arc _ _ h => follow_simulates hadd h depth u arc) h arcs

end LevelExpansion

namespace PathCounting

variable {s t : PathCounting W}

/-- Two counts have reached the same vertices, level by level, and marked the same arcs. Their counts are
related, and their queues may differ behind their tails. -/
structure Alike (related : W → W → Prop) (room : Nat) (s t : PathCounting W) : Prop where
  depths_eq : t.depths = s.depths
  counts : Pairs related s.counts t.counts
  successors : Bitmap.Alike room s.successors t.successors
  queue : s.queue.Alike t.queue
  levelStarts_eq : t.levelStarts = s.levelStarts

/-- Two counts start alike when they differ in their counts, in related ways, behind the tails of their
queues, and in the depths of earlier sources. -/
theorem start_simulates (hadd : Additive ops related) (n source : Nat)
    (hcounts : Pairs related s.counts t.counts) (hsuccessors : Bitmap.Alike room s.successors t.successors)
    (hqueue : s.queue.Alike t.queue) (hstarts : t.levelStarts = s.levelStarts) :
    Simulates (Alike related room) (s.start ops n source) (t.start ops n source) := by
  rw [start, start]
  apply (Simulates.refl _).bind
  rintro depths _ rfl
  apply (hcounts.writeAt_simulates source hadd.one).bind
  intro counts counts' hcounts
  apply (hqueue.push_simulates source).mapError.bind
  intro q r hqueue
  exact .ok ⟨rfl, hcounts, hsuccessors, hqueue.slide, hstarts⟩

/-- Counts that are alike expand a level alike. -/
theorem advance_simulates (hadd : Additive ops related) (h : Alike related room s t) (depth : Nat) :
    Simulates (Alike related room) (s.advance ops g depth) (t.advance ops g depth) := by
  rw [advance, advance]
  apply h.queue.window_simulates.bind
  rintro window _ rfl
  have hfirst : LevelExpansion.Alike related room ⟨s.depths, s.counts, s.successors, { queue := s.queue }⟩
      ⟨t.depths, t.counts, t.successors, { queue := t.queue }⟩ :=
    ⟨h.depths_eq, h.counts, h.successors, h.queue, rfl⟩
  apply (Simulates.foldlM (fun u _ _ h => LevelExpansion.expand_simulates hadd h (depth + 1) u)
    hfirst window).bind
  intro e f hexpanded
  apply hexpanded.claimed.close_simulates.mapError.bind
  intro q r hqueue
  refine .ok ⟨hexpanded.depths_eq, hexpanded.counts, hexpanded.successors, hqueue.slide, ?_⟩
  rw [h.levelStarts_eq, h.queue.windowStart_eq]

/-- Counts that are alike stay so level after level. -/
theorem run_simulates (hadd : Additive ops related) (h : Alike related room s t) (fuel depth : Nat) :
    Simulates (Alike related room) (run ops g fuel depth s) (run ops g fuel depth t) := by
  induction fuel generalizing depth s t with
  | zero =>
    rw [run, run, h.queue.isEmpty_eq, h.levelStarts_eq, h.queue.windowStart_eq]
    split
    · exact .ok { h with levelStarts_eq := rfl }
    · intro last hlast
      cases hlast
  | succ fuel ih =>
    rw [run, run, h.queue.isEmpty_eq, h.levelStarts_eq, h.queue.windowStart_eq]
    split
    · exact .ok { h with levelStarts_eq := rfl }
    · exact (advance_simulates hadd h depth).bind fun s t h => ih h (depth + 1)

/-- Counting from a source from buffers that differ in their counts, in related ways, and in what earlier
sources have left behind the tails of their queues. -/
theorem ofSource_simulates (hadd : Additive ops related) (g : Graph) (source : Nat)
    (hcounts : Pairs related s.counts t.counts) (hsuccessors : Bitmap.Alike room s.successors t.successors)
    (hqueue : s.queue.Alike t.queue) (hstarts : t.levelStarts = s.levelStarts) :
    Simulates (Alike related room) (s.ofSource ops g source) (t.ofSource ops g source) := by
  rw [ofSource, ofSource]
  apply (start_simulates hadd g.numVertices source hcounts hsuccessors hqueue hstarts).bind
  intro s t h
  exact run_simulates hadd h g.numVertices 0

end PathCounting

end GraphKernels
