import GraphKernels.Document.Basic
import GraphKernels.Parameter.Basic

/-!
# Parameter documents

A parameter document is an object that names some fields or a list that gives the leading ones. Fields
that are left out take their defaults; only the parts of a source choice have none.
-/

namespace GraphKernels

/-- Read a field that has a default. -/
def orDefault {α : Type} (read : Document → Option α) (default : α) :
    Option Document → Option α
  | none => some default
  | some document => read document

/-- Read search parameters. -/
def SearchParameters.ofDocument? (document : Document) : Option SearchParameters := do
  let defaults : SearchParameters := {}
  match ← document.fields? ["alpha", "beta"] with
  | [alpha, beta] =>
    return {
      alpha := ← orDefault (Document.word? 32) defaults.alpha alpha
      beta := ← orDefault (Document.word? 32) defaults.beta beta }
  | _ => none

/-- Read stepping parameters. -/
def SteppingParameters.ofDocument? (document : Document) : Option SteppingParameters := do
  let defaults : SteppingParameters := {}
  match ← document.fields? ["delta"] with
  | [delta] => return { delta := ← orDefault (Document.word? 32) defaults.delta delta }
  | _ => none

/-- Read component parameters. -/
def ComponentParameters.ofDocument? (document : Document) : Option ComponentParameters := do
  let defaults : ComponentParameters := {}
  match ← document.fields? ["neighbor_rounds", "num_samples", "seed"] with
  | [neighborRounds, numSamples, seed] =>
    return {
      neighborRounds := ← orDefault (Document.word? 64) defaults.neighborRounds neighborRounds
      numSamples := ← orDefault (Document.word? 64) defaults.numSamples numSamples
      seed := UInt64.ofNat (← orDefault (Document.word? 64) defaults.seed.toNat seed) }
  | _ => none

/-- Read the count and the seed of a sample, both of which are needed. -/
def sampleOfDocument? (document : Document) : Option SourceChoice := do
  match ← document.fields? ["count", "seed"] with
  | [some count, some seed] =>
    return .sampled (← count.word? 64) (UInt64.ofNat (← seed.word? 64))
  | _ => none

/-- Read a source choice. -/
def SourceChoice.ofDocument? : Document → Option SourceChoice
  | .text (some "all") => some .all
  | .object [(some "all", .null)] => some .all
  | .object [(some "fixed", .list ids)] => (ids.mapM (Document.word? 32)).map .fixed
  | .object [(some "sampled", sample)] => sampleOfDocument? sample
  | _ => none

/-- Read centrality parameters. -/
def CentralityParameters.ofDocument? (document : Document) : Option CentralityParameters := do
  let defaults : CentralityParameters := {}
  match ← document.fields? ["sources"] with
  | [sources] => return { sources := ← orDefault SourceChoice.ofDocument? defaults.sources sources }
  | _ => none

/-- Read ranking parameters. -/
def RankingParameters.ofDocument? (document : Document) : Option RankingParameters := do
  let defaults : RankingParameters := {}
  match ← document.fields? ["damping", "epsilon", "max_iters"] with
  | [damping, epsilon, maxSweeps] =>
    return {
      damping := ← orDefault Document.single? defaults.damping damping
      epsilon := ← orDefault Document.real? defaults.epsilon epsilon
      maxSweeps := ← orDefault (Document.word? 64) defaults.maxSweeps maxSweeps }
  | _ => none

end GraphKernels
