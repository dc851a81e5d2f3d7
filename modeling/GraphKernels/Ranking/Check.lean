import GraphKernels.Ranking.PageRank

/-!
# Checking a ranking

Every vertex hands its contribution on over its out-arcs, in the order of vertex ids. Scores are
accepted when, taken together, they differ little from what this gives.
-/

namespace GraphKernels

variable {N W : Type}

/-- Hand the contribution of a vertex on to its out-neighbors. -/
def pushContribution (ops : ScoreArithmetic N W) (g : Graph) (incoming : Array N)
    (entry : N × Nat) : Except Fault (Array N) := do
  let (score, u) := entry
  let passed := contribution ops score (← g.outDegree u)
  (← g.outNeighbors u).foldlM (fun incoming v => do
    writeAt incoming v (ops.add (← readAt incoming v) passed)) incoming

/-- What every vertex gets over its in-arcs. -/
def pushContributions (ops : ScoreArithmetic N W) (g : Graph) (scores : Array N) :
    Except Fault (Array N) :=
  scores.toList.zipIdx.foldlM (pushContribution ops g) (Array.replicate g.numVertices ops.zero)

/-- How far a score is from the one that its vertex gets. -/
def scoreResidual (ops : ScoreArithmetic N W) (base damping sum score : N) : W :=
  ops.widen (ops.abs (ops.sub (ops.add base (ops.mul damping sum)) score))

/-- The total difference between scores and what they give after one more step. -/
def Graph.rankingResidual (ops : ScoreArithmetic N W) (g : Graph) (damping : N)
    (scores : Array N) : Except Fault W := do
  let incoming ← pushContributions ops g scores
  let base := baseScore ops damping g.numVertices
  return ops.wideSum (List.zipWith (scoreResidual ops base damping) incoming.toList scores.toList)

/-- How far scores are from what they give after one more step, if that is too far. -/
def Graph.rankingFlaw? (ops : ScoreArithmetic N W) (g : Graph) (damping : N) (scores : Array N)
    (target : W) : Except Fault (Option W) := do
  let residual ← g.rankingResidual ops damping scores
  return if ops.wideLess residual target then none else some residual

/-- What a check of some scores finds. -/
inductive RankingVerdict (W : Type)
  | accepted
  /-- There are more or fewer scores than vertices. -/
  | wrongCount
  /-- One more step changes the scores by too much. -/
  | notFixed (residual : W)

/-- Judge some scores by how far one more step changes them. -/
def Graph.judgeRanking (ops : ScoreArithmetic N W) (g : Graph) (damping : N) (scores : Array N)
    (target : W) : Except Fault (RankingVerdict W) := do
  if scores.size ≠ g.numVertices then return .wrongCount
  if g.numVertices = 0 then return .accepted
  match ← g.rankingFlaw? ops damping scores target with
  | none => return .accepted
  | some residual => return .notFixed residual

/-- Whether some scores are nearly unchanged by one more step, with the reason if they are not. -/
def Graph.checkRanking (g : Graph) (damping : Float32) (scores : Array Float32) (target : Float) :
    Except Fault (Traced Bool) := do
  match ← g.judgeRanking .binary damping scores target with
  | .accepted => return ⟨true, []⟩
  | .wrongCount => return ⟨false, [.scoreCountWrong scores.size g.numVertices]⟩
  | .notFixed residual => return ⟨false, [.rankingNotFixed residual target]⟩

end GraphKernels
