import GraphKernels.Proofs.Distance.Stepping

/-!
# Rounds of delta-stepping

The floor of a round is the least distance that belongs in its bucket. Only vertices at or above the floor
have arcs to be relaxed, so nothing below it is written any more: at the start of a round every vertex with a
lighter walk has its final distance. Entries that are out of date do no harm, since all buckets that are
stored are at or behind that of the round. A bucket that has grown too large to be drained comes up again in
the next round, but no earlier one does.
-/

namespace GraphKernels

variable {g : Graph} {source delta k : Nat} {rest window : List Nat}

/-- Every vertex with a least weight below a floor has it as its distance. -/
def Relaxation.FinalBelow (g : Graph) (source floor : Nat) (r : Relaxation) : Prop :=
  ∀ v (weight : Nat), g.leastWeight source v = weight → weight < floor → r.distances[v]? = some weight

/-- What holds below a floor holds below a lower one. -/
theorem Relaxation.FinalBelow.mono {r : Relaxation} {floor floor' : Nat}
    (h : r.FinalBelow g source floor) (hle : floor' ≤ floor) : r.FinalBelow g source floor' :=
  fun v weight hleast hlt => h v weight hleast (hlt.trans_le hle)

/-- Below the floor of the current bucket no arc is still to be relaxed, so all distances are final. -/
theorem Relaxation.Filed.finalBelow {r : Relaxation} (h : r.Filed g source delta k rest)
    (hfloor : delta * k < unreached) : r.FinalBelow g source (delta * k) := by
  intro v weight hleast hlt
  have hrelaxed (u : Nat) (hu : r.distance u < delta * k) : r.Relaxed g u := by
    apply (h.owed u (by omega)).resolve_right
    intro hlate
    omega
  have hle : r.distance v ≤ weight :=
    h.distance_le_of_lt hrelaxed (Graph.weighedWalk_of_leastWeight hleast) hlt
  have hge : weight ≤ r.distance v :=
    Nat.cast_le.mp (hleast ▸ Graph.leastWeight_le (h.walk v (by omega)))
  have hv : v < r.distances.size := by
    by_contra houtside
    have : r.distance v = unreached := getD_of_size_le (Nat.le_of_not_lt houtside)
    omega
  rw [getElem?_eq_getD unreached hv]
  exact congrArg some (Nat.le_antisymm hle hge)

namespace Stepping

variable {s next later last : Stepping}

/-- A round, and the start of the next one with the first bucket that is left. -/
def Precedes (g : Graph) (delta : Nat) (s next : Stepping) : Prop :=
  ∃ settled bucket, s.settle g delta = .ok settled ∧
    settled.relaxation.buckets.firstFrom? settled.bucket = some bucket ∧ settled.enter bucket = .ok next

/-- The states in which a round starts. -/
def StartsRound (g : Graph) (source delta : Nat) (s : Stepping) : Prop :=
  ∃ first, start g.numVertices source = .ok first ∧ Relation.ReflTransGen (Precedes g delta) first s

/-- A round leads to a state of the same kind with a bucket that is not an earlier one. -/
theorem Stands.precedes (h : s.Stands g source delta window) (hwell : g.WellFormed)
    (hsource : source < g.numVertices) (hdelta : 1 ≤ delta) (hnext : Precedes g delta s next) :
    (∃ window, next.Stands g source delta window) ∧ s.bucket ≤ next.bucket := by
  obtain ⟨settled, bucket, hsettle, hfirst, henter⟩ := hnext
  obtain ⟨hfiled, hbucket, _⟩ := (settle_yields h hwell hsource hdelta).of_eq hsettle
  obtain ⟨hstands, hnumber, _⟩ := (enter_yields (hbucket ▸ hfiled) hdelta hfirst).of_eq henter
  refine ⟨hstands, ?_⟩
  rw [hnumber, ← hbucket]
  exact (Buckets.firstFrom?_eq_some hfirst).1

/-- So do any number of rounds. -/
theorem Stands.rounds (h : s.Stands g source delta window) (hwell : g.WellFormed)
    (hsource : source < g.numVertices) (hdelta : 1 ≤ delta)
    (hlater : Relation.ReflTransGen (Precedes g delta) s later) :
    (∃ window, later.Stands g source delta window) ∧ s.bucket ≤ later.bucket := by
  induction hlater with
  | refl => exact ⟨⟨window, h⟩, Nat.le_refl _⟩
  | tail _ hnext ih =>
    obtain ⟨⟨_, hstands⟩, hle⟩ := ih
    obtain ⟨hstands', hle'⟩ := hstands.precedes hwell hsource hdelta hnext
    exact ⟨hstands', hle.trans hle'⟩

/-- A run ends with a round that leaves no bucket. -/
theorem exists_last_round {fuel : Nat} (hrun : run g delta fuel s = .ok last) :
    ∃ later, Relation.ReflTransGen (Precedes g delta) s later ∧ later.settle g delta = .ok last ∧
      last.relaxation.buckets.firstFrom? last.bucket = none := by
  induction fuel generalizing s with
  | zero => cases hrun
  | succ fuel ih =>
    rw [run] at hrun
    obtain ⟨settled, hsettle, hrun⟩ := bind_eq_ok_iff.mp hrun
    split at hrun
    · next hnone =>
      cases hrun
      exact ⟨s, .refl, hsettle, hnone⟩
    · next bucket hfirst =>
      obtain ⟨next, henter, hrun⟩ := bind_eq_ok_iff.mp hrun
      obtain ⟨later, hlater, hlast⟩ := ih hrun
      exact ⟨later, .head ⟨settled, bucket, hsettle, hfirst, henter⟩ hlater, hlast⟩

/-- Only stepping from a vertex starts. -/
theorem StartsRound.source_lt (h : s.StartsRound g source delta) : source < g.numVertices := by
  obtain ⟨first, hfirst, _⟩ := h
  obtain ⟨_, hwrite, _⟩ := bind_eq_ok_iff.mp hfirst
  simpa using lt_size_of_writeAt hwrite

/-- The queue shows the vertices of the bucket of each round. -/
theorem StartsRound.stands (h : s.StartsRound g source delta) (hwell : g.WellFormed) (hdelta : 1 ≤ delta) :
    ∃ window, s.Stands g source delta window := by
  have hsource := h.source_lt
  obtain ⟨first, hfirst, hlater⟩ := h
  obtain ⟨hstands, _⟩ := (start_yields hsource delta).of_eq hfirst
  exact (hstands.rounds hwell hsource hdelta hlater).1

/-- All distances below the floor of a round are final when it starts and when it ends. -/
theorem Stands.finalBelow (h : s.Stands g source delta window) (hwell : g.WellFormed)
    (hsource : source < g.numVertices) (hdelta : 1 ≤ delta) :
    s.relaxation.FinalBelow g source (delta * s.bucket) ∧
      Yields (s.settle g delta) fun settled =>
        settled.relaxation.FinalBelow g source (delta * s.bucket) := by
  refine ⟨h.filed.finalBelow h.floor_lt, (settle_yields h hwell hsource hdelta).mono fun settled hsettled => ?_⟩
  exact hsettled.1.finalBelow h.floor_lt

end Stepping

/-- Delta-stepping on a built graph ends with a round that leaves no bucket. At the start of each round all
buckets before that of the round are empty, and all vertices with a least weight below the floor of the round
have it as their distance. They keep it in this and every later round, whose bucket is never an earlier
one. -/
theorem deltaStepping_rounds_final {o : BuildOptions} {edges : List Edge} {p : SteppingParameters}
    (hbuild : Graph.build o edges = .ok g) (hdelta : 1 ≤ p.delta) :
    (source < g.numVertices → ∃ (s last : Stepping) (events : List Event),
      s.StartsRound g source p.delta ∧ s.settle g p.delta = .ok last ∧
      last.relaxation.buckets.firstFrom? last.bucket = none ∧
      g.deltaStepping source p = .ok ⟨last.relaxation.distances, events⟩) ∧
    ∀ s : Stepping, s.StartsRound g source p.delta →
      (∀ k < s.bucket, s.relaxation.buckets.vertices k = #[]) ∧
      s.relaxation.FinalBelow g source (p.delta * s.bucket) ∧
      ∀ later, Relation.ReflTransGen (Stepping.Precedes g p.delta) s later → s.bucket ≤ later.bucket ∧
        later.relaxation.FinalBelow g source (p.delta * s.bucket) ∧
        ∃ settled, later.settle g p.delta = .ok settled ∧
          settled.relaxation.FinalBelow g source (p.delta * s.bucket) := by
  have hwell := Graph.wellFormed_build hbuild
  refine ⟨fun hsource => ?_, fun s hs => ?_⟩
  · obtain ⟨last, hlast, _⟩ := Graph.stepFrom_yields hwell hsource hdelta
    have hanswer := Graph.deltaStepping_eq hsource hdelta hlast
    rw [Graph.stepFrom] at hlast
    obtain ⟨first, hfirst, hrun⟩ := bind_eq_ok_iff.mp hlast
    obtain ⟨s, hs, hsettle, hnone⟩ := Stepping.exists_last_round hrun
    exact ⟨s, last, _, ⟨first, hfirst, hs⟩, hsettle, hnone, hanswer⟩
  · have hsource := hs.source_lt
    obtain ⟨window, hstands⟩ := hs.stands hwell hdelta
    refine ⟨fun k hk => ?_, (hstands.finalBelow hwell hsource hdelta).1, fun later hlater => ?_⟩
    · apply Buckets.vertices_of_notMem
      intro hmem
      exact absurd (hstands.filed.stored_le k hmem) (Nat.not_le_of_lt hk)
    · obtain ⟨⟨_, hstands'⟩, hle⟩ := hstands.rounds hwell hsource hdelta hlater
      obtain ⟨hfinal, settled, hsettle, hfinal'⟩ := hstands'.finalBelow hwell hsource hdelta
      have hfloor := Nat.mul_le_mul_left p.delta hle
      exact ⟨hle, hfinal.mono hfloor, settled, hsettle, hfinal'.mono hfloor⟩

/-- A directed graph with a cycle of weight zero, parallel arcs, a loop and a vertex that moves to an earlier
bucket. -/
theorem deltaStepping_rounds_final_stale :
    ∃ g, Graph.build {} [⟨0, 1, 9⟩, ⟨0, 2, 1⟩, ⟨2, 1, 4⟩, ⟨1, 3, 0⟩, ⟨3, 1, 0⟩, ⟨3, 3, 7⟩, ⟨0, 2, 5⟩] = .ok g ∧
      (0 < g.numVertices → ∃ (s last : Stepping) (events : List Event), s.StartsRound g 0 2 ∧
        s.settle g 2 = .ok last ∧ last.relaxation.buckets.firstFrom? last.bucket = none ∧
        g.deltaStepping 0 ⟨2⟩ = .ok ⟨last.relaxation.distances, events⟩) ∧
      ∀ s : Stepping, s.StartsRound g 0 2 →
        (∀ k < s.bucket, s.relaxation.buckets.vertices k = #[]) ∧
        s.relaxation.FinalBelow g 0 (2 * s.bucket) ∧
        ∀ later, Relation.ReflTransGen (Stepping.Precedes g 2) s later → s.bucket ≤ later.bucket ∧
          later.relaxation.FinalBelow g 0 (2 * s.bucket) ∧
          ∃ settled, later.settle g 2 = .ok settled ∧
            settled.relaxation.FinalBelow g 0 (2 * s.bucket) := by
  refine ⟨_, rfl, ?_⟩
  have hbuild : Graph.build {}
      [⟨0, 1, 9⟩, ⟨0, 2, 1⟩, ⟨2, 1, 4⟩, ⟨1, 3, 0⟩, ⟨3, 1, 0⟩, ⟨3, 3, 7⟩, ⟨0, 2, 5⟩] = .ok _ := rfl
  exact deltaStepping_rounds_final (p := ⟨2⟩) hbuild (by decide)

end GraphKernels
