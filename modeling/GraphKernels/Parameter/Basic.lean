import GraphKernels.Rejection

/-!
# Kernel parameters

Every kernel has its own parameters, all with defaults, and checks them before anything else.
-/

namespace GraphKernels

/-- The seed that sources are drawn with unless another is given. -/
def defaultSeed : UInt64 := 27491095

/-- Fail unless a parameter is positive. -/
def requirePositive (parameter : Parameter) (value : Nat) : Except Rejection Unit :=
  if value = 0 then .error (.invalidParameter parameter .notPositive) else .ok ()

/-- When a search by levels changes its direction. -/
structure SearchParameters where
  /-- Levels are filled from below once the frontier has more than this share of the open arcs. -/
  alpha : Nat := 15
  /-- They are filled from above again once the frontier is down to this share of the vertices. -/
  beta : Nat := 18
deriving DecidableEq, Repr

/-- Fail unless both shares are positive. -/
def SearchParameters.validate (p : SearchParameters) : Except Rejection Unit := do
  requirePositive .alpha p.alpha
  requirePositive .beta p.beta

/-- How wide the buckets of tentative distances are. -/
structure SteppingParameters where
  delta : Nat := 1
deriving DecidableEq, Repr

/-- Fail unless buckets have a width. -/
def SteppingParameters.validate (p : SteppingParameters) : Except Rejection Unit :=
  requirePositive .delta p.delta

/-- How the component to be skipped is found. -/
structure ComponentParameters where
  /-- The number of leading out-arcs of every vertex that are linked first. -/
  neighborRounds : Nat := 2
  /-- The number of vertices whose labels are looked at. -/
  numSamples : Nat := 1024
  seed : UInt64 := defaultSeed
deriving DecidableEq, Repr

/-- Fail unless some vertex is looked at. -/
def ComponentParameters.validate (p : ComponentParameters) : Except Rejection Unit :=
  requirePositive .numSamples p.numSamples

/-- The sources that centrality is summed over. -/
inductive SourceChoice
  | all
  | sampled (count : Nat) (seed : UInt64)
  | fixed (sources : List Nat)
deriving DecidableEq, Repr

/-- Which shortest paths centrality counts. -/
structure CentralityParameters where
  sources : SourceChoice := .sampled 1 defaultSeed
deriving DecidableEq, Repr

/-- Fail if a sample is asked for and empty. -/
def CentralityParameters.validate (p : CentralityParameters) : Except Rejection Unit :=
  match p.sources with
  | .sampled count _ => requirePositive .sourceCount count
  | _ => .ok ()

/-- How ranks are computed. -/
structure RankingParameters where
  damping : Float32 := 0.85
  /-- Sweeps stop once the change of one falls below this. -/
  epsilon : Float := 1e-4
  /-- The largest number of sweeps. -/
  maxSweeps : Nat := 20

/-- Fail unless the damping factor lies between zero and one and the least change is not negative. -/
def RankingParameters.validate (p : RankingParameters) : Except Rejection Unit :=
  if !(0 ≤ p.damping && p.damping ≤ 1) then
    .error (.invalidParameter .damping (.outsideUnit p.damping.toBits))
  else if p.epsilon.isNaN || p.epsilon < 0 then
    .error (.invalidParameter .epsilon .negative)
  else .ok ()

end GraphKernels
