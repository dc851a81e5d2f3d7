import GraphKernels.Proofs.Centrality.Agreement
import GraphKernels.Proofs.Component.Check
import GraphKernels.Proofs.Distance.Check
import GraphKernels.Proofs.Distance.Stepping
import GraphKernels.Proofs.Hops.Search
import GraphKernels.Proofs.Hops.TreeCheck
import GraphKernels.Proofs.Ranking.Residual
import GraphKernels.Proofs.Triangle.Check

/-!
# Every run ends

A kernel first checks its parameters and its sources. Where the check fails the run is rejected, and where
it passes the run ends in an answer: no access is outside its array, no queue runs over, nothing is divided
by zero and no loop goes on. This needs no more of the graph than compressed rows, so it holds of every
graph there is, those included whose tables list the arcs of an undirected graph in one direction only.
What the checks of results are handed may be of any length and name any vertices.
-/

namespace GraphKernels

variable {α : Type} {g : Graph}

/-- A run ends in the failure of its check, or in an answer where the check passes. -/
def EndsAfter (check : Except Failure Unit) (run : Except Failure α) : Prop :=
  match check with
  | .error failure => run = .error failure
  | .ok () => ∃ answer, run = .ok answer

/-- A run that begins with its check ends after it when the rest ends wherever the check passes. -/
theorem EndsAfter.of_bind {check : Except Failure Unit} {rest : Unit → Except Failure α}
    (hrest : check = .ok () → ∃ answer, rest () = .ok answer) : EndsAfter check (check >>= rest) := by
  cases check with
  | error failure => rfl
  | ok => exact hrest rfl

/-- Parameters that have to be positive are accepted when they are. -/
theorem requirePositive_eq_ok_iff {parameter : Parameter} {value : Nat} :
    requirePositive parameter value = .ok () ↔ 1 ≤ value := by
  rw [requirePositive]
  split
  · simp [*]
  · simp; omega

namespace Graph

/-- Fail unless a kernel can start at the vertex. -/
def requireSource (g : Graph) (source : Nat) : Except Failure Unit :=
  if g.numVertices ≤ source then .error (.rejected (.sourceOutOfBounds source g.numVertices)) else .ok ()

/-- Kernels start at vertices. -/
theorem requireSource_of_lt {source : Nat} (h : source < g.numVertices) : g.requireSource source = .ok () :=
  if_neg (Nat.not_le.mpr h)

/-- Several sources are rejected for the first one that is not a vertex. -/
theorem forM_requireSource (g : Graph) (sources : List Nat) :
    sources.forM g.requireSource = match sources.find? (g.numVertices ≤ ·) with
      | some bad => .error (.rejected (.sourceOutOfBounds bad g.numVertices))
      | none => .ok () := by
  induction sources with
  | nil => rfl
  | cons source rest ih =>
    change (g.requireSource source >>= fun _ => rest.forM g.requireSource) = _
    by_cases hsource : g.numVertices ≤ source
    · rw [List.find?_cons_of_pos (by simpa using hsource), requireSource, if_pos hsource]
      rfl
    · rw [List.find?_cons_of_neg (by simpa using hsource), ← ih,
        requireSource_of_lt (Nat.lt_of_not_le hsource), ok_bind]

/-! ### Kernels -/

/-- A search ends, in a tree or in the rejection of its parameters or its source. -/
theorem hopTree_endsAfter (hwell : g.WellFormed) (source : Nat) (p : SearchParameters) :
    EndsAfter (do p.validate.mapError .rejected; g.requireSource source) (g.hopTree source p) := by
  cases hvalid : p.validate with
  | error rejection =>
    rw [hopTree, hvalid]
    rfl
  | ok =>
    obtain ⟨_, halpha, hbeta⟩ := bind_eq_ok_iff.mp hvalid
    by_cases hsource : g.numVertices ≤ source
    · simp only [hopTree, hvalid, requireSource, if_pos hsource]
      rfl
    · obtain ⟨s, hs, _⟩ := searchFrom_yields (p := p) hwell (Nat.lt_of_not_le hsource)
        (requirePositive_eq_ok_iff.mp halpha) (requirePositive_eq_ok_iff.mp hbeta)
      simp only [hopTree, hvalid, requireSource, if_neg hsource, hs]
      exact ⟨_, rfl⟩

/-- Delta-stepping ends, in distances or in the rejection of its parameters or its source. -/
theorem deltaStepping_endsAfter (hwell : g.WellFormed) (source : Nat) (p : SteppingParameters) :
    EndsAfter (do p.validate.mapError .rejected; g.requireSource source) (g.deltaStepping source p) := by
  cases hvalid : p.validate with
  | error rejection =>
    rw [deltaStepping, hvalid]
    rfl
  | ok =>
    by_cases hsource : g.numVertices ≤ source
    · simp only [deltaStepping, hvalid, requireSource, if_pos hsource]
      rfl
    · obtain ⟨distances, events, hrun, _⟩ := deltaStepping_isLeastWeights hwell
        (Nat.lt_of_not_le hsource) (requirePositive_eq_ok_iff.mp hvalid)
      simp only [requireSource, if_neg hsource]
      exact ⟨_, hrun⟩

/-- Sampled linking ends, in labels or in the rejection of its parameters. -/
theorem afforest_endsAfter (hwell : g.WellFormed) (p : ComponentParameters) :
    EndsAfter (p.validate.mapError .rejected) (g.afforest p) := by
  apply EndsAfter.of_bind
  intro _
  by_cases hn : g.numVertices = 0
  · exact ⟨⟨#[], []⟩, if_pos hn⟩
  · obtain ⟨⟨labels, skipped, count⟩, hrun, _⟩ :=
      linkComponents_grows p hwell (joinsRows_true g) (Nat.pos_of_ne_zero hn)
    simp only [if_neg hn, hrun]
    exact ⟨_, rfl⟩

/-- Centrality ends, in scores or in the rejection of its first source that is not a vertex. -/
theorem brandes_endsAfter (hwell : g.WellFormed) (sources : List Nat) :
    EndsAfter (sources.forM g.requireSource) (g.brandes sources) := by
  rw [forM_requireSource, brandes, centrality]
  cases hfound : sources.find? (g.numVertices ≤ ·) with
  | some bad => rfl
  | none =>
    have hsources (source : Nat) (hmem : source ∈ sources) : source < g.numVertices := by
      simpa using List.find?_eq_none.mp hfound source hmem
    have hrun : Yields (g.accumulateCentrality .binary sources) fun w => w.Ready g := by
      apply Yields.foldlM fun (_ : List Nat) (w : CentralityWorkspace Float32 Float) => w.Ready g
      · exact CentralityWorkspace.ready_start _ g
      · intro seen source rest w hitems hready
        apply (CentralityWorkspace.process_yields hready hwell (hsources source (by simp [hitems]))).mono
        exact fun _ hnext => hnext.1
    obtain ⟨w, hw, _⟩ := hrun
    simp only [hw]
    exact ⟨_, rfl⟩

/-- A vertex that is not refused is one of the graph. -/
theorem lt_of_checkVertex {u : Nat} (h : (g.checkVertex u).mapError Failure.refused = .ok ()) :
    u < g.numVertices := by
  rw [checkVertex] at h
  split at h
  · cases h
  · omega

/-- The serial search by levels ends, in depths or in the refusal of its source. -/
theorem hopDepths_endsAfter (hwell : g.WellFormed) (source : Nat) :
    EndsAfter ((g.checkVertex source).mapError .refused) (g.hopDepths source) := by
  apply EndsAfter.of_bind
  intro hcheck
  obtain ⟨depths, hrun, _⟩ := depthsFrom_yields hwell (lt_of_checkVertex hcheck)
  rw [hrun]
  exact ⟨depths, rfl⟩

/-- The serial computation of distances ends, in distances or in the refusal of its source. -/
theorem dijkstra_endsAfter (hwell : g.WellFormed) (source : Nat) :
    EndsAfter ((g.checkVertex source).mapError .refused) (g.dijkstra source) := by
  apply EndsAfter.of_bind
  intro hcheck
  obtain ⟨distances, hrun, _⟩ := distancesFrom_yields hwell (lt_of_checkVertex hcheck)
  rw [hrun]
  exact ⟨distances, rfl⟩

/-! ### Checks of results -/

/-- The check of labels ends. -/
theorem checkComponents_ends (hwell : g.WellFormed) (labels : Array Nat) :
    ∃ verdict, g.checkComponents labels = .ok verdict := by
  obtain ⟨components, hrun, hsize⟩ := componentLabels_yields hwell
  exact (checkComponents_decides_same hrun hsize labels).ends

/-- The check of scores ends. -/
theorem checkCentrality_ends (hwell : g.WellFormed) (sources : List Nat) (scores : Array Float32) :
    ∃ verdict, g.checkCentrality sources scores = .ok verdict := by
  have hserial : ∃ answer, addSourcesSerially .binary g sources
      (Array.replicate g.numVertices ScoreArithmetic.binary.zero) = .ok answer :=
    addSourcesSerially_ends sources hwell Array.size_replicate
  obtain ⟨answer, hrun⟩ := hserial
  rw [checkCentrality, centralitySerially, hrun, ok_bind]
  split
  · exact ⟨_, rfl⟩
  · cases answer <;> exact ⟨_, rfl⟩

/-- The check of a ranking ends. -/
theorem checkRanking_ends (hwell : g.WellFormed) (damping : Float32) (scores : Array Float32)
    (target : Float) : ∃ verdict, g.checkRanking damping scores target = .ok verdict := by
  obtain ⟨verdict, hrun⟩ := judgeRanking_ends .binary damping scores target hwell
  rw [checkRanking, hrun, ok_bind]
  cases verdict <;> exact ⟨_, rfl⟩

/-! ### All of them -/

/-- Every kernel ends, whatever its arguments are. -/
structure KernelsEnd (g : Graph) : Prop where
  hopTree (source : Nat) (p : SearchParameters) :
    EndsAfter (do p.validate.mapError .rejected; g.requireSource source) (g.hopTree source p)
  deltaStepping (source : Nat) (p : SteppingParameters) :
    EndsAfter (do p.validate.mapError .rejected; g.requireSource source) (g.deltaStepping source p)
  afforest (p : ComponentParameters) : EndsAfter (p.validate.mapError .rejected) (g.afforest p)
  brandes (sources : List Nat) : EndsAfter (sources.forM g.requireSource) (g.brandes sources)
  countFromLargest : ∃ count, g.countFromLargest = .ok count
  hopDepths (source : Nat) : EndsAfter ((g.checkVertex source).mapError .refused) (g.hopDepths source)
  dijkstra (source : Nat) : EndsAfter ((g.checkVertex source).mapError .refused) (g.dijkstra source)
  componentLabels : ∃ labels, g.componentLabels = .ok labels

/-- Every check of a result ends in a verdict, whatever is to be checked. -/
structure ChecksEnd (g : Graph) : Prop where
  hopTree (source : Nat) (parents : Array (Option Nat)) :
    ∃ verdict, g.checkHopTree source parents = .ok verdict
  distances (source : Nat) (distances : Array Nat) :
    ∃ verdict, g.checkDistances source distances = .ok verdict
  components (labels : Array Nat) : ∃ verdict, g.checkComponents labels = .ok verdict
  centrality (sources : List Nat) (scores : Array Float32) :
    ∃ verdict, g.checkCentrality sources scores = .ok verdict
  ranking (damping : Float32) (scores : Array Float32) (target : Float) :
    ∃ verdict, g.checkRanking damping scores target = .ok verdict
  triangles (count : Nat) : ∃ verdict, g.checkTriangles count = .ok verdict

/-- On every graph there is, all kernels and all checks end: in the rejection of their arguments where
these break a precondition, and otherwise in an answer. -/
theorem constructible_ends (h : g.Constructible) : g.KernelsEnd ∧ g.ChecksEnd := by
  have hwell := h.wellFormed
  constructor
  · exact {
      hopTree := hopTree_endsAfter hwell
      deltaStepping := deltaStepping_endsAfter hwell
      afforest := afforest_endsAfter hwell
      brandes := brandes_endsAfter hwell
      countFromLargest := ⟨_, countFromLargest_eq_total hwell⟩
      hopDepths := hopDepths_endsAfter hwell
      dijkstra := dijkstra_endsAfter hwell
      componentLabels := by
        obtain ⟨labels, hrun, _⟩ := componentLabels_yields hwell
        exact ⟨labels, hrun⟩ }
  · exact {
      hopTree := fun source parents => (checkHopTree_decides_fits hwell source parents).ends
      distances := fun source distances => (checkDistances_decides hwell source distances).ends
      components := checkComponents_ends hwell
      centrality := checkCentrality_ends hwell
      ranking := checkRanking_ends hwell
      triangles := fun count => (checkTriangles_decides_sixth (intersectionTotal_eq hwell) count).ends }

/-- An undirected graph whose tables list two arcs in one direction only, in one row that does not ascend. -/
theorem constructible_ends_one_sided :
    ∃ g, ofTables
        (.table [⟨"source", .words #[0, 0]⟩, ⟨"target", .words #[2, 1]⟩, ⟨"weight", .words #[5, 0]⟩])
        (.table [⟨"num_nodes", .longWords #[3]⟩, ⟨"directed", .flags #[false]⟩]) = .ok g ∧
      g.directed = false ∧ ¬ g.Mirrored ∧ g.Constructible ∧ g.KernelsEnd ∧ g.ChecksEnd := by
  refine ⟨_, rfl, rfl, ?_⟩
  have hread : ofTables
      (.table [⟨"source", .words #[0, 0]⟩, ⟨"target", .words #[2, 1]⟩, ⟨"weight", .words #[5, 0]⟩])
      (.table [⟨"num_nodes", .longWords #[3]⟩, ⟨"directed", .flags #[false]⟩]) = .ok _ := rfl
  refine ⟨fun hmirrored => ?_, .tables hread, constructible_ends (.tables hread)⟩
  exact absurd (hmirrored 0 1 0 (by decide) (by decide)) (by decide)

end Graph

end GraphKernels
