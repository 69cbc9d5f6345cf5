import Posterior.Failure

/-! The parameters of the engines and of a run, with their defaults. Counts must be positive. -/

namespace Posterior

def requirePositive (field : String) (count : Nat) : Except Failure Unit :=
  if count = 0 then .error (.zeroCount field none) else .ok ()

structure MetropolisConfig where
  /-- How many samples are recorded, the first execution included. -/
  iterations : Nat := 1000
  deriving DecidableEq, Inhabited

structure FilterConfig where
  particles : Nat := 100
  /-- Whether a barrier at which every weight is impossible is a failure. -/
  strict : Bool := true
  deriving DecidableEq, Inhabited

structure RejuvenationConfig where
  particles : Nat := 100
  /-- How many steps every running particle takes after each barrier. -/
  steps : Nat := 10
  /-- Whether only the choices since the last barrier are moved. -/
  restricted : Bool := false
  /-- Whether every step of the final pass is observed. -/
  collectAll : Bool := false
  deriving DecidableEq, Inhabited

/-- How the log normalizer of an asynchronous run is estimated. -/
inductive Normalization where
  /-- The final weights of the exited particles over the number of fresh launches. -/
  | finalWeights
  /-- The running mean weight at the deepest factor reached. -/
  | lastFactorMean
  deriving DecidableEq, Inhabited

structure AsyncConfig where
  /-- How many particles must exit before there is a result. -/
  particles : Nat := 100
  bufferSize : Nat := 20
  normalization : Normalization := .finalWeights
  deriving DecidableEq, Inhabited

inductive Algorithm where
  | metropolis (config : MetropolisConfig)
  | filter (config : FilterConfig)
  | rejuvenation (config : RejuvenationConfig)
  | async (config : AsyncConfig)
  deriving DecidableEq, Inhabited

structure SeedPolicy where
  masterSeed : UInt64 := 0x05EED5EEDD155EED
  /-- A label that sets the seeds of a run apart from those of others with the same master seed. -/
  label : Option String := none
  deriving DecidableEq, Inhabited

structure Config where
  algorithm : Algorithm
  seeds : SeedPolicy := {}
  /-- How many independent replicates are run. -/
  chains : Nat := 1
  deriving DecidableEq, Inhabited

def MetropolisConfig.validate (c : MetropolisConfig) : Except Failure Unit :=
  requirePositive "iterations" c.iterations

def FilterConfig.validate (c : FilterConfig) : Except Failure Unit :=
  requirePositive "particles" c.particles

def RejuvenationConfig.validate (c : RejuvenationConfig) : Except Failure Unit :=
  requirePositive "particles" c.particles

def AsyncConfig.validate (c : AsyncConfig) : Except Failure Unit := do
  requirePositive "particles" c.particles
  requirePositive "buffer_size" c.bufferSize

namespace Algorithm

def name : Algorithm → String
  | metropolis _ => "mh"
  | filter _ => "particle-filter"
  | rejuvenation _ => "rejuvenation"
  | async _ => "async-smc"

def validate : Algorithm → Except Failure Unit
  | metropolis c => c.validate
  | filter c => c.validate
  | rejuvenation c => c.validate
  | async c => c.validate

end Algorithm

def Config.validate (c : Config) : Except Failure Unit := do
  requirePositive "chains" c.chains
  c.algorithm.validate

theorem requirePositive_eq_ok_iff {field : String} {count : Nat} :
    requirePositive field count = .ok () ↔ 0 < count := by
  unfold requirePositive
  split <;> simp <;> omega

end Posterior
