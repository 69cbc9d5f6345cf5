import Posterior.Json.Writer
import Posterior.Runner

/-!
The documents of values, reports, configurations and results. An infinite or undefined number has
no text of its own; an impossible log weight is written as null.
-/

namespace Posterior

open Json

mutual

def Value.document : Value → Document
  | .unit => .record [("kind", .str "unit")]
  | .bool b => .record [("kind", .str "bool"), ("value", .bool b)]
  | .int i => .record [("kind", .str "int"), ("value", .int i.toInt)]
  | .real x => .record [("kind", .str "real"), ("value", .real x)]
  | .str s => .record [("kind", .str "str"), ("value", .str s)]
  | .list items => .record [("kind", .str "list"), ("value", .list (Value.documents items))]

def Value.documents : List Value → List Document
  | [] => []
  | v :: vs => v.document :: Value.documents vs

end

def Address.document (a : Address) : Document := .str a.path

def Store.document (s : Store) : Document :=
  .record [("slots", .record (s.rows.map fun row => (row.1, row.2.document)))]

def HandlerId.document (id : HandlerId) : Document := .count id.number

/-- A log weight; the impossible one is null. -/
def logWeightDocument (w : Float) : Document := if w == Numeric.negInf then .null else .real w

def Empirical.document (d : Empirical) : Document :=
  .record <|
    [("support", .list (d.support.map fun row => .list [row.1.document, .real row.2])),
      ("log_normalizer", logWeightDocument d.logNormalizer)]
    ++ (match d.acceptanceRatio with
      | none => []
      | some ratio => [("acceptance_ratio", .real ratio)])
    ++ [("samples", .count d.samples)]

def Detail.document (d : Detail) : Document :=
  .record <|
    [("code", .str d.code), ("message", .str d.message),
      ("context", .record (d.context.rows.map fun row => (row.1, .str row.2)))]
    ++ (match d.hint with
      | none => []
      | some hint => [("hint", .str hint)])

def Report.document (r : Report) : Document :=
  .record [("family", .str r.family.name), ("detail", r.detail.document)]

def Barrier.document (b : Barrier) : Document :=
  .record [("barrier", .count b.index), ("log_mean_weight", logWeightDocument b.logMeanWeight),
    ("effective_sample_size", .real b.effectiveSampleSize),
    ("distinct_ancestors", .count b.distinctAncestors), ("degenerate", .bool b.degenerate)]

def Metrics.document (m : Metrics) : Document :=
  .record [("executions", .count m.executions), ("proposals", .count m.proposals),
    ("accepted", .count m.accepted), ("rejuvenation_moves", .count m.rejuvenationMoves),
    ("rejuvenation_accepted", .count m.rejuvenationAccepted),
    ("particles_spawned", .count m.particlesSpawned),
    ("particles_dropped", .count m.particlesDropped),
    ("barriers", .list (m.barriers.map Barrier.document))]

def Inference.document (i : Inference) : Document :=
  .record [("distribution", i.distribution.document), ("metrics", i.metrics.document)]

def Summary.document (s : Summary) : Document :=
  .record [("algorithm", .str s.algorithm), ("seed", .count s.seed.toNat),
    ("distribution", s.distribution.document), ("metrics", s.metrics.document)]

def Normalization.name : Normalization → String
  | finalWeights => "final-weights"
  | lastFactorMean => "last-factor-mean"

def Algorithm.parameters : Algorithm → List (String × Document)
  | metropolis c => [("iterations", .count c.iterations)]
  | filter c => [("particles", .count c.particles), ("strict", .bool c.strict)]
  | rejuvenation c =>
    [("particles", .count c.particles), ("rejuvenation_steps", .count c.steps),
      ("restricted", .bool c.restricted), ("collect_all_iterations", .bool c.collectAll)]
  | async c =>
    [("particles", .count c.particles), ("buffer_size", .count c.bufferSize),
      ("normalization", .str c.normalization.name)]

def Algorithm.document (a : Algorithm) : Document :=
  .record (("type", .str a.name) :: a.parameters)

def SeedPolicy.document (p : SeedPolicy) : Document :=
  .record [("master_seed", .count p.masterSeed.toNat), ("label", .ofOption .str p.label)]

def Config.document (c : Config) : Document :=
  .record [("algorithm", c.algorithm.document), ("seed_policy", c.seeds.document),
    ("chains", .count c.chains)]

/-- The summary as an indented document. -/
def Summary.indentedText (s : Summary) : String := s.document.indented 0

end Posterior
