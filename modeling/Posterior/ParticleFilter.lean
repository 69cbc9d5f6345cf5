import Posterior.Config
import Posterior.Handler.Basic
import Posterior.Inference
import Posterior.Population.Basic

/-!
The synchronous particle filter. A particle that reaches a factor is parked there and the turn goes
to the next one; the particle that closes the round has the whole population resampled.
-/

namespace Posterior

structure ParticleFilter (n : Nat) where
  population : Population n
  metrics : Metrics

namespace ParticleFilter

variable {n : Nat}

/-- The handler under which the filter runs, and whether it is strict. -/
structure Task where
  id : HandlerId
  strict : Bool

def setPopulation (p : Population n) : Run (ParticleFilter n) Unit :=
  Run.modifyEngine fun e => { e with population := p }

/-- Gives the turn to a particle. -/
def turnTo (i : Fin n) : Run (ParticleFilter n) (Control Empirical) := do
  let p := (← Run.engine).population.activate i
  setPopulation p
  return .resume p.resumeCurrent

def finish (task : Task) : Run (ParticleFilter n) (Control Empirical) := do
  let p := (← Run.engine).population
  let distribution ← Run.ofExcept (Empirical.ofHistogram p.histogram)
  Run.restore task.id
  return .done (distribution.withLogNormalizer p.logNormalizer)

def barrier (task : Task) : Run (ParticleFilter n) Unit := do
  let e ← Run.engine
  let (population, noted) ← Run.draw
    (e.population.resample task.strict "particle-filter" e.metrics.barriers.length)
  Run.setEngine { population, metrics := e.metrics.pushBarrier noted }

/-- Resamples and starts the next round from the first particle still running. -/
def nextRound (task : Task) : Run (ParticleFilter n) (Control Empirical) := do
  barrier task
  match (← Run.engine).population.firstRunning? with
  | some first => turnTo first
  | none => finish task

def handler (task : Task) : Handler (ParticleFilter n) Empirical where
  name := "particle-filter"
  id := task.id
  onSample choice deliver := do
    let value ← Run.draw (choice.dist.draw choice.params)
    return .resume (.deliver deliver choice.store value)
  onFactor point resume := do
    setPopulation ((← Run.engine).population.updateCurrent (·.park point resume))
    let p := (← Run.engine).population
    if p.atBarrier then nextRound task
    else turnTo (p.nextRunning?.getD p.active)
  onExit store value := do
    let closesRound := (← Run.engine).population.atBarrier
    setPopulation ((← Run.engine).population.updateCurrent (·.complete store value))
    match (← Run.engine).population.nextRunning? with
    | none => finish task
    | some next => if closesRound then nextRound task else turnTo next

def start (pos : 0 < n) (entry : Continuation) (store : Store) : ParticleFilter n where
  population := .start pos entry store
  metrics := .ofPopulation n

/-- Checks the parameters and installs the engine. -/
def install (config : FilterConfig) : InContext { _task : Task // 0 < config.particles } := do
  if pos : 0 < config.particles then
    let id ← InContext.install "particle-filter"
    return ⟨{ id, strict := config.strict }, pos⟩
  else InContext.fail (.zeroCount "particles" none)

/-- The marginal of a program. -/
def run (fuel : Nat) (config : FilterConfig) (program : Program) (address : Address)
    (store : Store) : InContext Inference := do
  let ⟨task, pos⟩ ← install config
  let engine := start pos (program.entry address) store
  let (distribution, engine) ← Run.inContext
    ((handler task).drive fuel engine.population.resumeCurrent) engine
  return ⟨distribution, engine.metrics⟩

end ParticleFilter

end Posterior
