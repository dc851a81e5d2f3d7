import GraphKernels.Proofs.Run
import GraphKernels.Ranking.PageRank

/-!
# Moments of a ranking

A run goes through a state before every update and one after the last update of each sweep. A run that keeps a
record of them ends as the run itself does, and what it records are the states that are reached by sweeps that have
not ended the run and by some first updates of the next one.
-/

namespace GraphKernels

/-! ### Loops that are recorded -/

section Loops

variable {α β ε : Type} {step : β → α → Except ε β} {items : List α} {state last s : β}

/-- A loop with a record of its states, from where it starts to where it ends. -/
def recordLoop (step : β → α → Except ε β) : List α → β → Except ε (List β × β)
  | [], state => .ok ([state], state)
  | item :: rest, state => do
    let (states, last) ← recordLoop step rest (← step state item)
    return (state :: states, last)

/-- A recorded loop ends as the loop does, and its states are where some first entries lead. -/
theorem recordLoop_yields (h : items.foldlM step state = .ok last) :
    Yields (recordLoop step items state) fun record => record.2 = last ∧
      ∀ s, s ∈ record.1 ↔ ∃ count, (items.take count).foldlM step state = .ok s := by
  induction items generalizing state with
  | nil =>
    refine .ok ⟨Except.ok.inj h, fun s => ?_⟩
    simp only [List.mem_singleton, List.take_nil]
    constructor
    · rintro rfl
      exact ⟨0, rfl⟩
    · rintro ⟨_, hs⟩
      exact (Except.ok.inj hs).symm
  | cons item rest ih =>
    rw [List.foldlM_cons] at h
    obtain ⟨next, hnext, hrest⟩ := bind_eq_ok_iff.mp h
    rw [recordLoop, hnext, ok_bind]
    apply (ih hrest).bind
    intro record hrecord
    obtain ⟨hlast, hstates⟩ := hrecord
    refine .ok ⟨hlast, fun s => ?_⟩
    rw [List.mem_cons, hstates]
    constructor
    · rintro (rfl | ⟨count, hs⟩)
      · exact ⟨0, rfl⟩
      · refine ⟨count + 1, ?_⟩
        rw [List.take_succ_cons, List.foldlM_cons, hnext]
        exact hs
    · rintro ⟨count, hs⟩
      cases count with
      | zero => exact Or.inl (Except.ok.inj hs).symm
      | succ count =>
        rw [List.take_succ_cons, List.foldlM_cons, hnext] at hs
        exact Or.inr ⟨count, hs⟩

end Loops

variable {N W : Type} {ops : ScoreArithmetic N W} {g : Graph} {damping : N} {epsilon : W} {maxSweeps : Nat}
  {r next last : Ranking N W}

namespace Ranking

/-! ### States of a run -/

/-- A sweep that does not end the run, from one ranking to the next. -/
def Precedes (ops : ScoreArithmetic N W) (g : Graph) (damping : N) (epsilon : W) (r next : Ranking N W) :
    Prop :=
  ∃ change, r.sweep ops g damping = .ok (next, change) ∧ ops.wideLess change epsilon = false

/-- The states that a run goes through, up to each of its updates: some sweeps have not ended it, and the
next one, if it is allowed, has replaced the scores of some first vertices. -/
def Underway (ops : ScoreArithmetic N W) (g : Graph) (damping : N) (epsilon : W) (maxSweeps : Nat)
    (s : Sweep N W) : Prop :=
  ∃ first r count, start ops g = .ok first ∧
    Relation.ReflTransGen (Precedes ops g damping epsilon) first r ∧ r.changes.size < maxSweeps ∧
    (g.vertices.take count).foldlM (Sweep.update ops g damping)
      { scores := r.scores, contributions := r.contributions } = .ok s

/-- A run with a record of its states, those of every sweep from before its first update to after its last. -/
def recordRun (ops : ScoreArithmetic N W) (g : Graph) (damping : N) (epsilon : W) :
    (sweeps : Nat) → Ranking N W → Except Fault (List (Sweep N W) × Ranking N W)
  | 0, r => .ok ([], r)
  | sweeps + 1, r => do
    let (states, _) ← recordLoop (Sweep.update ops g damping) g.vertices
      { scores := r.scores, contributions := r.contributions }
    let (r, change) ← r.sweep ops g damping
    if ops.wideLess change epsilon then return (states, { r with converged := true })
    else
      let (later, last) ← recordRun ops g damping epsilon sweeps r
      return (states ++ later, last)

/-- A sweep adds its change to those of the sweeps before it. -/
theorem size_of_sweep {change : W} (h : r.sweep ops g damping = .ok (next, change)) :
    next.changes.size = r.changes.size + 1 := by
  obtain ⟨s, _, hnext⟩ := bind_eq_ok_iff.mp h
  cases hnext
  exact Array.size_push _

/-- Sweeps only add changes. -/
theorem size_le_of_precedes (h : Relation.ReflTransGen (Precedes ops g damping epsilon) r next) :
    r.changes.size ≤ next.changes.size := by
  induction h with
  | refl => exact Nat.le_refl _
  | tail _ hnext ih =>
    obtain ⟨change, hsweep, _⟩ := hnext
    rw [size_of_sweep hsweep]
    omega

/-- What comes later than a ranking is the ranking itself or comes later than the next one, if the sweep in between
does not end the run. -/
theorem precedes_iff {later : Ranking N W} {change : W} (hsweep : r.sweep ops g damping = .ok (next, change)) :
    Relation.ReflTransGen (Precedes ops g damping epsilon) r later ↔
      later = r ∨ ops.wideLess change epsilon = false ∧
        Relation.ReflTransGen (Precedes ops g damping epsilon) next later := by
  constructor
  · intro h
    rcases Relation.ReflTransGen.cases_head h with rfl | ⟨other, ⟨change', hother, hlarge⟩, hrest⟩
    · exact Or.inl rfl
    · rw [hsweep] at hother
      cases hother
      exact Or.inr ⟨hlarge, hrest⟩
  · rintro (rfl | ⟨hlarge, hrest⟩)
    · exact .refl
    · exact hrest.head ⟨change, hsweep, hlarge⟩

/-- A recorded run ends as the run does, and its states are those of the sweeps that it comes to. -/
theorem recordRun_yields {sweeps : Nat} (h : run ops g damping epsilon sweeps r = .ok last) :
    Yields (recordRun ops g damping epsilon sweeps r) fun record => record.2 = last ∧
      ∀ s, s ∈ record.1 ↔ ∃ later count, Relation.ReflTransGen (Precedes ops g damping epsilon) r later ∧
        later.changes.size < r.changes.size + sweeps ∧
        (g.vertices.take count).foldlM (Sweep.update ops g damping)
          { scores := later.scores, contributions := later.contributions } = .ok s := by
  induction sweeps generalizing r with
  | zero =>
    refine .ok ⟨Except.ok.inj h, fun s => ?_⟩
    simp only [List.not_mem_nil, false_iff]
    rintro ⟨later, _, hlater, hsize, _⟩
    have := size_le_of_precedes hlater
    omega
  | succ sweeps ih =>
    rw [run] at h
    obtain ⟨⟨next, change⟩, hsweep, hrest⟩ := bind_eq_ok_iff.mp h
    obtain ⟨swept, hloop, -⟩ := bind_eq_ok_iff.mp hsweep
    have hsize := size_of_sweep hsweep
    rw [recordRun]
    apply (recordLoop_yields hloop).bind
    intro record hrecord
    obtain ⟨-, hstates⟩ := hrecord
    dsimp only
    rw [hsweep, ok_bind]
    dsimp only at hrest ⊢
    simp only [precedes_iff hsweep]
    cases hsmall : ops.wideLess change epsilon with
    | true =>
      rw [hsmall, if_pos rfl] at hrest
      rw [if_pos rfl, Yields.pure_iff]
      refine ⟨Except.ok.inj hrest, fun s => (hstates s).trans ?_⟩
      constructor
      · rintro ⟨count, hs⟩
        exact ⟨r, count, Or.inl rfl, by omega, hs⟩
      · rintro ⟨later, count, rfl | ⟨hlarge, _⟩, _, hs⟩
        · exact ⟨count, hs⟩
        · cases hlarge
    | false =>
      rw [hsmall, if_neg (by simp)] at hrest
      rw [if_neg (by simp)]
      apply (ih hrest).bind
      intro later hlater
      obtain ⟨hlast, hlaterStates⟩ := hlater
      refine .ok ⟨hlast, fun s => ?_⟩
      rw [List.mem_append, hstates, hlaterStates]
      constructor
      · rintro (⟨count, hs⟩ | ⟨later, count, hlater, hallowed, hs⟩)
        · exact ⟨r, count, Or.inl rfl, by omega, hs⟩
        · exact ⟨later, count, Or.inr ⟨rfl, hlater⟩, by omega, hs⟩
      · rintro ⟨later, count, rfl | ⟨_, hlater⟩, hallowed, hs⟩
        · exact Or.inl ⟨count, hs⟩
        · exact Or.inr ⟨later, count, hlater, by omega, hs⟩

/-- A run starts without changes. -/
theorem size_of_start (h : start ops g = .ok r) : r.changes.size = 0 := by
  obtain ⟨contributions, _, hr⟩ := bind_eq_ok_iff.mp h
  cases hr
  rfl

end Ranking

/-- Rank the vertices of a graph with a record of the states that the run goes through. -/
def Graph.recordRank (ops : ScoreArithmetic N W) (g : Graph) (damping : N) (epsilon : W) (maxSweeps : Nat) :
    Except Fault (List (Sweep N W) × Ranking N W) := do
  Ranking.recordRun ops g damping epsilon maxSweeps (← Ranking.start ops g)

/-- Ranking with a record gives the same answer, and what is recorded are the states under way. -/
theorem Graph.recordRank_yields (h : g.rank ops damping epsilon maxSweeps = .ok last) :
    Yields (g.recordRank ops damping epsilon maxSweeps) fun record => record.2 = last ∧
      ∀ s, s ∈ record.1 ↔ Ranking.Underway ops g damping epsilon maxSweeps s := by
  obtain ⟨first, hstart, hrun⟩ := bind_eq_ok_iff.mp h
  rw [recordRank, hstart, ok_bind]
  apply (Ranking.recordRun_yields hrun).mono
  intro record hrecord
  obtain ⟨hlast, hstates⟩ := hrecord
  rw [Ranking.size_of_start hstart, Nat.zero_add] at hstates
  refine ⟨hlast, fun s => (hstates s).trans ?_⟩
  constructor
  · rintro ⟨r, count, hlater, hallowed, hs⟩
    exact ⟨first, r, count, hstart, hlater, hallowed, hs⟩
  · rintro ⟨first', r, count, hstart', hlater, hallowed, hs⟩
    rw [hstart] at hstart'
    cases hstart'
    exact ⟨r, count, hlater, hallowed, hs⟩

end GraphKernels
