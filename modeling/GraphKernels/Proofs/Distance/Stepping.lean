import GraphKernels.Proofs.Distance.Relaxation
import GraphKernels.Proofs.Frontier.Queue

/-!
# Delta-stepping finds least weights

A round takes the vertices of one bucket, which the queue shows, and leaves nothing in this bucket unless
distances have become shorter. So every round either goes on to a later bucket or lowers the sum of all
distances. Once no bucket is left every arc is relaxed, and then the distances are the least weights of
walks, up to the distance of an unreached vertex and whatever the width of the buckets is.
-/

namespace GraphKernels

variable {g : Graph} {source delta v : Nat}

/-- If every arc of a vertex below a floor is relaxed, no walk that ends below the floor is shorter than
the distance at its end. -/
theorem Relaxation.Sound.distance_le_of_lt {r : Relaxation} (h : r.Sound g source) {floor weight : Nat}
    (hrelaxed : ∀ u, r.distance u < floor → r.Relaxed g u) (hwalk : g.WeighedWalk source weight v)
    (hlt : weight < floor) : r.distance v ≤ weight := by
  induction hwalk with
  | start => exact h.source_eq.le
  | @step weight u a _ harc ih =>
    have hu : r.distance u ≤ weight := ih (by omega)
    exact (hrelaxed u (by omega) a harc).trans (Nat.add_le_add_right hu _)

/-- If every arc of a reached vertex is relaxed, no walk is shorter than the distance at its end. -/
theorem Relaxation.Sound.distance_le {r : Relaxation} (h : r.Sound g source)
    (hrelaxed : ∀ u, r.distance u < unreached → r.Relaxed g u) {weight : Nat}
    (hwalk : g.WeighedWalk source weight v) : r.distance v ≤ weight := by
  by_cases hlt : weight < unreached
  · exact h.distance_le_of_lt hrelaxed hwalk hlt
  · exact (h.le_unreached v).trans (Nat.le_of_not_lt hlt)

/-- If every arc of a reached vertex is relaxed, distances are least weights. -/
theorem Relaxation.Sound.distance_eq {r : Relaxation} (h : r.Sound g source)
    (hrelaxed : ∀ u, r.distance u < unreached → r.Relaxed g u) (v : Nat) :
    (r.distance v : ℕ∞) = min (unreached : ℕ∞) (g.leastWeight source v) := by
  apply le_antisymm
  · refine le_min (Nat.cast_le.mpr (h.le_unreached v)) (Graph.le_leastWeight fun weight hwalk => ?_)
    exact Nat.cast_le.mpr (h.distance_le hrelaxed hwalk)
  · by_cases hreached : r.distance v < unreached
    · exact (min_le_right _ _).trans (Graph.leastWeight_le (h.walk v hreached))
    · exact (min_le_left _ _).trans (Nat.cast_le.mpr (by omega))

namespace Stepping

variable {window : List Nat} {s : Stepping}

/-- Stepping stands before a round: the queue shows the vertices of the current bucket, which is not stored
itself. -/
structure Stands (g : Graph) (source delta : Nat) (window : List Nat) (s : Stepping) : Prop where
  filed : s.relaxation.Filed g source delta s.bucket window
  shows : s.frontier.Shows window
  notMem : s.bucket ∉ s.relaxation.buckets
  floor_lt : delta * s.bucket < unreached

/-- A round leaves nothing to be done in its bucket unless a distance has become shorter. -/
theorem settle_yields (h : s.Stands g source delta window) (hwell : g.WellFormed)
    (hsource : source < g.numVertices) (hdelta : 1 ≤ delta) :
    Yields (s.settle g delta) fun last => last.relaxation.Filed g source delta s.bucket [] ∧
      last.bucket = s.bucket ∧ last.relaxation.total ≤ s.relaxation.total ∧
      (s.bucket ∈ last.relaxation.buckets → last.relaxation.total < s.relaxation.total) := by
  have hwindow : Yields (window.foldlM (Relaxation.relaxAbove g delta (delta * s.bucket)) s.relaxation)
      fun r => r.Filed g source delta s.bucket [] ∧ Relaxation.Lowers (delta * s.bucket) s.relaxation r := by
    apply Relaxation.foldlM_yields h.filed
    intro u rest next _ hfiled _
    exact Relaxation.relaxAbove_yields hfiled hwell hdelta
  rw [settle, h.shows.window_eq, ok_bind]
  apply hwindow.bind
  intro r hr
  obtain ⟨hfiled, hlowers⟩ := hr
  have htotal := hfiled.total_le hsource
  have hfuel : r.total < g.steppingBound := by
    rw [Graph.steppingBound]
    omega
  apply (Relaxation.fuse_yields hfiled hwell hdelta fun _ => hfuel).bind
  intro last hlast
  obtain ⟨hlast, hless, hkept⟩ := hlast
  refine .ok ⟨hlast, rfl, hless.trans hlowers.total_le, fun hmem => ?_⟩
  rcases hlowers.total_lt with rfl | hlt
  · exact absurd (hkept hmem) h.notMem
  · exact Nat.lt_of_le_of_lt hless hlt

/-- The first bucket that is not empty becomes the current one. -/
theorem enter_yields {bucket : Nat} (h : s.relaxation.Filed g source delta s.bucket [])
    (hdelta : 1 ≤ delta) (hfirst : s.relaxation.buckets.firstFrom? s.bucket = some bucket) :
    Yields (s.enter bucket) fun next =>
      (∃ window, next.Stands g source delta window) ∧ next.bucket = bucket ∧
        next.relaxation.total = s.relaxation.total := by
  obtain ⟨_, hmem, hleast⟩ := Buckets.firstFrom?_eq_some hfirst
  rw [enter]
  apply (s.frontier.reset_ensureCapacity_yields _).mapError.bind
  intro queue hqueue
  obtain ⟨htail, hend, hroom⟩ := hqueue
  have hfits : queue.tail + (s.relaxation.buckets.vertices bucket).toList.length ≤ queue.capacity := by
    rw [htail, Nat.zero_add, Array.length_toList]
    exact hroom
  apply (WindowQueue.append_yields hfits).mapError.bind
  intro queue' hqueue'
  rw [Yields.pure_iff]
  refine ⟨⟨(s.relaxation.buckets.vertices bucket).toList, ?_⟩, rfl, rfl⟩
  exact {
    filed := h.enter hdelta hleast
    shows := hqueue'.slide_shows (hend.trans htail.symm)
    notMem := fun hmem => (Buckets.mem_erase.mp hmem).1 rfl
    floor_lt := h.stored_lt bucket hmem }

/-- Stepping ends. Each round that is not the last one goes on to a later bucket or has lowered the sum of
all distances. -/
theorem run_yields {fuel : Nat} (h : s.Stands g source delta window) (hwell : g.WellFormed)
    (hsource : source < g.numVertices) (hdelta : 1 ≤ delta)
    (hfuel : s.relaxation.total + (unreached - s.bucket) < fuel) :
    Yields (run g delta fuel s) fun last => last.relaxation.Sound g source ∧
      ∀ u, last.relaxation.distance u < unreached → last.relaxation.Relaxed g u := by
  induction fuel generalizing window s with
  | zero => exact absurd hfuel (Nat.not_lt_zero _)
  | succ fuel ih =>
    rw [run]
    apply (settle_yields h hwell hsource hdelta).bind
    intro last hlast
    obtain ⟨hfiled, hbucket, htotal, hagain⟩ := hlast
    cases hfirst : last.relaxation.buckets.firstFrom? last.bucket with
    | none =>
      refine .ok ⟨hfiled.toSound, fun u hu => ?_⟩
      rcases hfiled.owed u hu with hrelaxed | ⟨hk, hfiled | hlisted⟩
      · exact hrelaxed
      · have hlate : last.bucket ≤ last.relaxation.distance u / delta := by
          rw [Nat.le_div_iff_mul_le hdelta, Nat.mul_comm, hbucket]
          exact hk
        exact absurd (Buckets.mem_of_mem_vertices hfiled) (Buckets.firstFrom?_eq_none hfirst hlate)
      · simp at hlisted
    | some bucket =>
      obtain ⟨hle, hmem, _⟩ := Buckets.firstFrom?_eq_some hfirst
      apply (enter_yields (hbucket ▸ hfiled) hdelta hfirst).bind
      intro next hnext
      obtain ⟨⟨window, hstands⟩, hnumber, hsame⟩ := hnext
      apply ih hstands
      have hlt : s.bucket < unreached := (Nat.le_mul_of_pos_left _ hdelta).trans_lt h.floor_lt
      rw [hbucket] at hle
      rw [hsame, hnumber]
      by_cases hsamebucket : bucket = s.bucket
      · have := hagain (hsamebucket ▸ hmem)
        omega
      · omega

/-- Stepping starts with the source in the first bucket. -/
theorem start_yields (hsource : source < g.numVertices) (delta : Nat) :
    Yields (start g.numVertices source) fun s => s.Stands g source delta [source] ∧ s.bucket = 0 := by
  have hsize : source < (Array.replicate g.numVertices unreached).size := by simpa using hsource
  have hstart := Relaxation.atSource_start hsource ∅
  have hroom : (WindowQueue.withCapacity 1).tail < (WindowQueue.withCapacity 1).capacity := by decide
  rw [start, writeAt_eq_setIfInBounds _ hsize, ok_bind]
  apply (WindowQueue.push_yields hroom).mapError.bind
  intro queue hqueue
  refine .ok ⟨?_, rfl⟩
  exact {
    filed := {
      toSound := hstart.sound (by simp)
      rest_lt := fun u hu => List.mem_singleton.mp hu ▸ hsource
      entry_lt := fun j v hv => by simp [Buckets.vertices] at hv
      stored_le := fun j hj => by simp at hj
      stored_lt := fun j hj => by simp at hj
      near := fun v hv => by simp [Buckets.vertices] at hv
      owed := fun v hv => by
        by_cases hne : v = source
        · exact Or.inr ⟨by simp, Or.inr (List.mem_singleton.mpr hne)⟩
        · exact absurd hv (hstart.2 v hne).symm.le.not_gt }
    shows := hqueue.slide_shows rfl
    notMem := by simp
    floor_lt := show delta * 0 < unreached by simp [unreached] }

end Stepping

/-- There is a distance for every vertex: the exact least weight of a walk to it, or that of an unreached
vertex if there is no walk or none is lighter. -/
structure IsLeastWeights (g : Graph) (source : Nat) (distances : Array Nat) : Prop where
  size_eq : distances.size = g.numVertices
  entry_eq : ∀ v < g.numVertices,
    ∃ d, distances[v]? = some d ∧ (d : ℕ∞) = min (unreached : ℕ∞) (g.leastWeight source v)

/-- The distances are determined by the graph and the source. -/
theorem IsLeastWeights.unique {distances others : Array Nat} (h : IsLeastWeights g source distances)
    (h' : IsLeastWeights g source others) : distances = others := by
  apply eq_of_getElem?_eq h.size_eq h'.size_eq
  intro v hv
  obtain ⟨d, hd, heq⟩ := h.entry_eq v hv
  obtain ⟨d', hd', heq'⟩ := h'.entry_eq v hv
  rw [hd, hd', Nat.cast_injective (heq.trans heq'.symm)]

/-- Once every arc is relaxed, the distances are the least weights. -/
theorem Relaxation.Sound.isLeastWeights {r : Relaxation} (h : r.Sound g source)
    (hrelaxed : ∀ u, r.distance u < unreached → r.Relaxed g u) : IsLeastWeights g source r.distances where
  size_eq := h.size_eq
  entry_eq v hv :=
    ⟨r.distance v, getElem?_eq_getD unreached (h.size_eq.symm ▸ hv), h.distance_eq hrelaxed v⟩

/-- Stepping from a vertex ends with every arc relaxed. -/
theorem Graph.stepFrom_yields (hwell : g.WellFormed) (hsource : source < g.numVertices)
    (hdelta : 1 ≤ delta) :
    Yields (g.stepFrom source delta) fun s => s.relaxation.Sound g source ∧
      ∀ u, s.relaxation.distance u < unreached → s.relaxation.Relaxed g u := by
  rw [Graph.stepFrom]
  apply (Stepping.start_yields hsource delta).bind
  intro s hs
  obtain ⟨hstands, hbucket⟩ := hs
  have htotal := hstands.filed.total_le hsource
  apply Stepping.run_yields hstands hwell hsource hdelta
  rw [hbucket, Graph.steppingBound]
  omega

/-- What is made of stepping that has ended: its distances, and a summary behind its events. -/
theorem Graph.deltaStepping_eq {p : SteppingParameters} {s : Stepping} (hsource : source < g.numVertices)
    (hdelta : 1 ≤ p.delta) (hs : g.stepFrom source p.delta = .ok s) :
    g.deltaStepping source p = .ok ⟨s.relaxation.distances, s.events.toList ++
      [.steppingComplete source s.rounds (s.relaxation.distances.countP (· != unreached))]⟩ := by
  have hvalid : p.validate = .ok () := by
    rw [SteppingParameters.validate, requirePositive, if_neg (by omega)]
  have hinside : ¬ g.numVertices ≤ source := by omega
  simp only [Graph.deltaStepping, hvalid, hs, hinside, if_false]
  rfl

/-- Delta-stepping ends in the least weights. -/
theorem deltaStepping_isLeastWeights {p : SteppingParameters} (hwell : g.WellFormed)
    (hsource : source < g.numVertices) (hdelta : 1 ≤ p.delta) :
    ∃ distances events, g.deltaStepping source p = .ok ⟨distances, events⟩ ∧
      IsLeastWeights g source distances := by
  obtain ⟨s, hs, hsound, hrelaxed⟩ := Graph.stepFrom_yields hwell hsource hdelta
  exact ⟨_, _, Graph.deltaStepping_eq hsource hdelta hs, hsound.isLeastWeights hrelaxed⟩

/-- From every vertex of a built graph delta-stepping ends, whatever the width of its buckets, and always
gives the same distances: the exact least weights of walks, up to the distance of an unreached vertex. -/
theorem deltaStepping_leastWeight {o : BuildOptions} {edges : List Edge}
    (hbuild : Graph.build o edges = .ok g) (hsource : source < g.numVertices) :
    ∃ distances, IsLeastWeights g source distances ∧ ∀ p : SteppingParameters, 1 ≤ p.delta →
      ∃ events, g.deltaStepping source p = .ok ⟨distances, events⟩ := by
  have hwell := Graph.wellFormed_build hbuild
  obtain ⟨distances, _, _, hleast⟩ := deltaStepping_isLeastWeights (p := {}) hwell hsource (by decide)
  refine ⟨distances, hleast, fun p hdelta => ?_⟩
  obtain ⟨others, events, hrun, hleast'⟩ := deltaStepping_isLeastWeights hwell hsource hdelta
  exact ⟨events, hleast.unique hleast' ▸ hrun⟩

/-- A directed graph with a cycle of weight zero, parallel arcs, a loop and weights that add up to more than
a word can hold. -/
theorem deltaStepping_leastWeight_heavy :
    ∃ g, Graph.build {} [⟨0, 1, 2⟩, ⟨0, 1, 1⟩, ⟨1, 2, 0⟩, ⟨2, 1, 0⟩, ⟨2, 2, 7⟩, ⟨2, 3, 4294967295⟩] = .ok g ∧
      ∃ distances, IsLeastWeights g 0 distances ∧ ∀ p : SteppingParameters, 1 ≤ p.delta →
        ∃ events, g.deltaStepping 0 p = .ok ⟨distances, events⟩ := by
  refine ⟨_, rfl, ?_⟩
  have hbuild : Graph.build {}
      [⟨0, 1, 2⟩, ⟨0, 1, 1⟩, ⟨1, 2, 0⟩, ⟨2, 1, 0⟩, ⟨2, 2, 7⟩, ⟨2, 3, 4294967295⟩] = .ok _ := rfl
  exact deltaStepping_leastWeight hbuild (by decide)

end GraphKernels
