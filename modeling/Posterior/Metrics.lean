import Posterior.Decimal.Layout
import Posterior.Numeric.Elementary
import Posterior.Value.Text

/-! What an engine counts while it runs, and what it notes at each resampling barrier. -/

namespace Posterior

/-- One resampling barrier: its index, the log-mean and the effective sample size of the weights
before resampling, and how many parents survived. It is degenerate if all weights were impossible. -/
structure Barrier where
  index : Nat
  logMeanWeight : Float
  effectiveSampleSize : Float
  distinctAncestors : Nat
  degenerate : Bool
  deriving Inhabited

structure Metrics where
  executions : Nat := 0
  proposals : Nat := 0
  accepted : Nat := 0
  rejuvenationMoves : Nat := 0
  rejuvenationAccepted : Nat := 0
  particlesSpawned : Nat := 0
  particlesDropped : Nat := 0
  barriers : List Barrier := []
  deriving Inhabited

namespace Metrics

/-- A share of a count, absent where nothing was counted. -/
def rate? (part whole : Nat) : Option Float :=
  if whole = 0 then none else some (Numeric.ofCount part / Numeric.ofCount whole)

def acceptanceRate? (m : Metrics) : Option Float := rate? m.accepted m.proposals

def rejuvenationRate? (m : Metrics) : Option Float :=
  rate? m.rejuvenationAccepted m.rejuvenationMoves

def pushBarrier (m : Metrics) (b : Barrier) : Metrics := { m with barriers := m.barriers ++ [b] }

/-- The counts of a population of a given size before it has run. -/
def ofPopulation (size : Nat) : Metrics := { executions := size, particlesSpawned := size }

end Metrics

def Barrier.row (b : Barrier) : String :=
  ",".intercalate [toString b.index, Decimal.fixedText 6 b.logMeanWeight,
    Decimal.fixedText 6 b.effectiveSampleSize, toString b.distinctAncestors,
    Value.boolText b.degenerate]

/-- The barriers as a table of comma-separated values with six decimal places. -/
def Metrics.csv (m : Metrics) : String :=
  String.join ((["barrier,log_mean_weight,effective_sample_size,distinct_ancestors,degenerate"]
    ++ m.barriers.map Barrier.row).map (· ++ "\n"))

end Posterior
