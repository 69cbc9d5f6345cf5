import Posterior.AsyncSmc
import Posterior.MetropolisHastings
import Posterior.ParticleFilter
import Posterior.Random.Substream
import Posterior.Rejuvenation.Filter

/-!
Runs by configuration: once from the master seed, or as replicate chains from seeds of their own.
-/

namespace Posterior

namespace SeedPolicy

/-- Folds a label into a master seed, byte by byte. -/
def labelled (master : UInt64) (label : String) : UInt64 :=
  label.toUTF8.toList.foldl (fun seed byte => Random.substreamSeed seed byte.toUInt64)
    (master ^^^ 0xA5A5A5A5A5A5A5A5)

/-- The seed of a replicate chain. -/
def chainSeed (p : SeedPolicy) (chain : Nat) : UInt64 :=
  let base :=
    match p.label with
    | some label => labelled p.masterSeed label
    | none => p.masterSeed
  Random.substreamSeed base chain.toUInt64

end SeedPolicy

/-- What a completed run came to. -/
structure Summary where
  algorithm : String
  seed : UInt64
  distribution : Empirical
  metrics : Metrics
  deriving Inhabited

namespace Algorithm

/-- Runs the engine named by the algorithm. -/
def runWith (a : Algorithm) (fuel : Nat) (program : Program) (address : Address) (store : Store) :
    InContext Inference := do
  InContext.ofExcept a.validate
  match a with
  | metropolis config => MetropolisHastings.run fuel config program address store
  | filter config => ParticleFilter.run fuel config program address store
  | rejuvenation config => RejuvenatingFilter.run fuel config program address store
  | async config => AsyncSmc.run fuel config program address store

/-- Runs in a fresh context. -/
def runSeeded (a : Algorithm) (fuel : Nat) (seed : UInt64) (program : Program) (address : Address)
    (store : Store) : Except Stop Summary :=
  match a.runWith fuel program address store (Context.ofSeed seed) with
  | .ok inference _ =>
    .ok { algorithm := a.name, seed, distribution := inference.distribution
          metrics := inference.metrics }
  | .error stop _ => .error stop

end Algorithm

namespace Config

def checked (c : Config) : Except Stop Unit := c.validate.mapError .failed

/-- Runs the configured engine once. -/
def run (c : Config) (fuel : Nat) (program : Program) (address : Address) (store : Store) :
    Except Stop Summary := do
  c.checked
  c.algorithm.runSeeded fuel c.seeds.masterSeed program address store

/-- Runs the replicates one after another. -/
def runChains (c : Config) (fuel : Nat) (program : Program) (address : Address) (store : Store) :
    Except Stop (List Summary) := do
  c.checked
  (List.range c.chains).mapM fun chain =>
    c.algorithm.runSeeded fuel (c.seeds.chainSeed chain) program address store

end Config

end Posterior
