import GraphKernels.Distance.Check
import GraphKernels.Proofs.Distance.Settled
import GraphKernels.Proofs.Graph.Constructible
import GraphKernels.Proofs.Verdict

/-!
# Which distances are accepted

The check compares distances with those of the serial computation, which are the least weights of walks up
to the distance of an unreached vertex. There is only one array of least weights, so the check accepts that
one and no other.
-/

namespace GraphKernels

variable {g : Graph} {source : Nat}

/-- Nothing differs between two arrays of one size exactly when they are equal. -/
theorem mismatches_eq_nil_iff {got expected : Array Nat} (hsize : expected.size = got.size) :
    ((got.toList.zip expected.toList).zipIdx.filterMap fun ((got, expected), v) =>
      if got = expected then none else some (Event.distanceMismatch v got expected)) = [] ↔
        got = expected := by
  rw [List.filterMap_eq_nil_iff]
  constructor
  · intro hsame
    apply eq_of_getElem?_eq rfl hsize
    intro v hv
    have hv' : v < expected.size := hsize.symm ▸ hv
    have hitem : ((got[v], expected[v]), v) ∈ (got.toList.zip expected.toList).zipIdx :=
      mem_zipIdx_zip.mpr (by simp [hv, hv'])
    have heq : got[v] = expected[v] := by simpa using hsame _ hitem
    rw [Array.getElem?_eq_getElem hv, Array.getElem?_eq_getElem hv', heq]
  · intro heq item hitem
    obtain ⟨ha, hb⟩ := mem_zipIdx_zip.mp hitem
    rw [heq] at ha
    exact if_pos (Option.some.inj (ha.symm.trans hb))

/-- On every well-formed graph the check decides whether some distances are the least weights. -/
theorem Graph.checkDistances_decides (hwell : g.WellFormed) (source : Nat) (distances : Array Nat) :
    Decides (g.checkDistances source distances)
      (source < g.numVertices ∧ IsLeastWeights g source distances) := by
  rw [checkDistances]
  by_cases hsource : g.numVertices ≤ source
  · rw [if_pos hsource]
    exact .reject (by omega)
  · rw [if_neg hsource]
    apply Decides.bind (distancesFrom_yields hwell (Nat.lt_of_not_le hsource))
    intro expected hexpected
    by_cases hsize : expected.size = distances.size
    · rw [if_neg (not_not_intro hsize)]
      apply Decides.ofReasons
      rw [mismatches_eq_nil_iff hsize, and_iff_right (Nat.lt_of_not_le hsource)]
      constructor
      · intro heq
        exact heq ▸ hexpected
      · intro hleast
        exact hleast.unique hexpected
    · rw [if_pos hsize]
      exact .reject fun h => hsize (hexpected.size_eq.trans h.2.size_eq.symm)

/-- From every vertex of a graph, however it was made, the serial computation ends in the exact least
weights of walks, up to the distance of an unreached vertex. The check decides, whatever it is handed,
whether the source is a vertex and the distances are these. -/
theorem dijkstra_leastWeight (hg : g.Constructible) :
    (∀ source < g.numVertices, ∃ distances,
      g.dijkstra source = .ok distances ∧ IsLeastWeights g source distances) ∧
    ∀ source distances, Decides (g.checkDistances source distances)
      (source < g.numVertices ∧ IsLeastWeights g source distances) := by
  refine ⟨fun source hsource => ?_, Graph.checkDistances_decides hg.wellFormed⟩
  obtain ⟨distances, hrun, hleast⟩ := Graph.distancesFrom_yields hg.wellFormed hsource
  have hcheck : g.checkVertex source = .ok () := if_neg (Nat.not_le.mpr hsource)
  refine ⟨distances, ?_, hleast⟩
  rw [Graph.dijkstra, hcheck, hrun]
  rfl

/-- An undirected graph read from tables whose arcs go one way only, with parallel arcs, an arc without
weight, and two walks of which the sum of one is past the largest distance. -/
theorem dijkstra_leastWeight_oneSided :
    ∃ g, Graph.ofTables
        (.table [⟨"source", .words #[0, 0, 1, 2, 1]⟩, ⟨"target", .words #[1, 1, 2, 1, 3]⟩,
          ⟨"weight", .words #[7, 4, 0, 0, 2147483644]⟩])
        (.table [⟨"num_nodes", .longWords #[4]⟩, ⟨"directed", .flags #[false]⟩]) = .ok g ∧
      g.Constructible ∧ (∃ distances, g.dijkstra 0 = .ok distances ∧ IsLeastWeights g 0 distances) ∧
      ∀ source distances, Decides (g.checkDistances source distances)
        (source < g.numVertices ∧ IsLeastWeights g source distances) := by
  refine ⟨_, rfl, ?_⟩
  have hread : Graph.ofTables
      (.table [⟨"source", .words #[0, 0, 1, 2, 1]⟩, ⟨"target", .words #[1, 1, 2, 1, 3]⟩,
        ⟨"weight", .words #[7, 4, 0, 0, 2147483644]⟩])
      (.table [⟨"num_nodes", .longWords #[4]⟩, ⟨"directed", .flags #[false]⟩]) = .ok _ := rfl
  obtain ⟨hruns, hchecks⟩ := dijkstra_leastWeight (.tables hread)
  exact ⟨.tables hread, hruns 0 (by decide), hchecks⟩

end GraphKernels
