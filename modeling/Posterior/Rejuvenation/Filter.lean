import Posterior.Config
import Posterior.Inference
import Posterior.Rejuvenation.Mover

/-!
The particle filter with rejuvenation. Its particles keep their choices. After each barrier every
running particle is moved up to the factor that it is parked at, and when all have exited each is
moved once more along the whole of its execution.
-/

namespace Posterior

structure RejuvenatingFilter (n : Nat) where
  population : Population n
  metrics : Metrics

namespace RejuvenatingFilter

variable {n : Nat}

/-- The handler under which the filter runs, its parameters, and the fuel of each move. -/
structure Task where
  id : HandlerId
  steps : Nat
  restricted : Bool
  collectAll : Bool
  fuel : Nat

def setPopulation (p : Population n) : Run (RejuvenatingFilter n) Unit :=
  Run.modifyEngine fun e => { e with population := p }

/-- Gives the turn to a particle. -/
def turnTo (i : Fin n) : Run (RejuvenatingFilter n) (Control Empirical) := do
  let p := (← Run.engine).population.activate i
  setPopulation p
  return .resume p.resumeCurrent

/-- Moves a particle and counts the moves. -/
def move (task : Task) (particle : Particle) (limit : Option Nat) (histogram : Option Histogram) :
    Run (RejuvenatingFilter n) Rejuvenated := do
  Run.onContext (.ensureActive task.id)
  let moved ← Run.onContext (rejuvenate task.fuel particle limit task.steps histogram)
  Run.modifyEngine fun e =>
    { e with
      metrics.rejuvenationMoves := e.metrics.rejuvenationMoves + moved.proposals
      metrics.rejuvenationAccepted := e.metrics.rejuvenationAccepted + moved.accepted }
  return moved

/-- Under restriction, the choices so far are out of reach of later moves. -/
def raiseFloor (task : Task) (particle : Particle) : Particle :=
  if task.restricted then { particle with regenFloor := particle.trace.length } else particle

/-- Moves a running particle up to the factor that it is parked at. -/
def moveRunning (task : Task) (i : Fin n) : Run (RejuvenatingFilter n) Unit := do
  let p := (← Run.engine).population
  if p.isRunning i then
    let particle := p.particles.get i
    let moved ← move task particle (some particle.factorCount) none
    setPopulation ((← Run.engine).population.setParticle i (raiseFloor task moved.particle))

/-- Resamples, then moves every running particle. -/
def barrier (task : Task) : Run (RejuvenatingFilter n) Unit := do
  let e ← Run.engine
  let (population, noted) ← Run.draw
    (e.population.resample false "rejuvenation" e.metrics.barriers.length)
  Run.setEngine { population, metrics := e.metrics.pushBarrier noted }
  (List.finRange n).forM (moveRunning task)

/-- Moves an exited particle along the whole of its execution. -/
def moveExited (task : Task) (histogram : Option Histogram) (i : Fin n) :
    Run (RejuvenatingFilter n) (Option Histogram) := do
  let particle := (← Run.engine).population.particles.get i
  let moved ← move task { particle with regenFloor := 0 } none histogram
  setPopulation ((← Run.engine).population.setParticle i moved.particle)
  return moved.histogram

/-- The histogram of the final pass, if every step of it is to be observed. -/
def collected (task : Task) : Option Histogram :=
  if task.collectAll && task.steps != 0 then some {} else none

def finish (task : Task) : Run (RejuvenatingFilter n) (Control Empirical) := do
  let collected ← (List.finRange n).foldlM (moveExited task) (collected task)
  let p := (← Run.engine).population
  let distribution ← Run.ofExcept (Empirical.ofHistogram (collected.getD p.histogram))
  Run.restore task.id
  return .done (distribution.withLogNormalizer p.logNormalizer)

/-- Passes a barrier and starts the next round from the first particle still running. -/
def nextRound (task : Task) : Run (RejuvenatingFilter n) (Control Empirical) := do
  barrier task
  match (← Run.engine).population.firstRunning? with
  | some first => turnTo first
  | none => finish task

/-- Puts a choice on the record of a particle. -/
def recordChoice (particle : Particle) (choice : Choice) (deliver : Delivery) (value : Value)
    (choiceScore : Float) : Except Failure Particle := do
  let trace ← particle.trace.push
    { choice, deliver, value, choiceScore, scoreBefore := particle.score
      factorsBefore := particle.factorCount, reused := false }
  return { particle with trace := trace, score := particle.score + choiceScore }

/-- Parks a particle; the weight of the factor counts in its score too. -/
def parkScored (particle : Particle) (point : Factor) (resume : Continuation) : Particle :=
  { particle.park point resume with score := particle.score + point.logWeight }

def handler (task : Task) : Handler (RejuvenatingFilter n) Empirical where
  name := "rejuvenation"
  id := task.id
  onSample choice deliver := do
    let value ← Run.draw (choice.dist.draw choice.params)
    let score ← Run.ofExcept (choice.dist.score choice.params value)
    let score ← Run.ofExcept (ensureNumber "score-nan" "choice score" score)
    let p := (← Run.engine).population
    let particle ← Run.ofExcept (recordChoice p.current choice deliver value score)
    setPopulation (p.setParticle p.active particle)
    return .resume (.deliver deliver choice.store value)
  onFactor point resume := do
    setPopulation ((← Run.engine).population.updateCurrent (parkScored · point resume))
    let p := (← Run.engine).population
    if p.atBarrier then nextRound task
    else turnTo (p.nextRunning?.getD p.active)
  onExit store value := do
    let closesRound := (← Run.engine).population.atBarrier
    setPopulation ((← Run.engine).population.updateCurrent (·.complete store value))
    match (← Run.engine).population.nextRunning? with
    | none => finish task
    | some next => if closesRound then nextRound task else turnTo next

def start (pos : 0 < n) (entry : Continuation) (store : Store) : RejuvenatingFilter n where
  population := .start pos entry store
  metrics := .ofPopulation n

/-- Checks the parameters and installs the engine. -/
def install (fuel : Nat) (config : RejuvenationConfig) :
    InContext { _task : Task // 0 < config.particles } := do
  if pos : 0 < config.particles then
    let id ← InContext.install "rejuvenation"
    return ⟨{ id, steps := config.steps, restricted := config.restricted
              collectAll := config.collectAll, fuel }, pos⟩
  else InContext.fail (.zeroCount "particles" none)

/-- The marginal of a program. -/
def run (fuel : Nat) (config : RejuvenationConfig) (program : Program) (address : Address)
    (store : Store) : InContext Inference := do
  let ⟨task, pos⟩ ← install fuel config
  let engine := start pos (program.entry address) store
  let (distribution, engine) ← Run.inContext
    ((handler task).drive fuel engine.population.resumeCurrent) engine
  return ⟨distribution, engine.metrics⟩

end RejuvenatingFilter

end Posterior
