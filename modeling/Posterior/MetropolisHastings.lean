import Posterior.Chain.Basic
import Posterior.Config
import Posterior.Inference

/-!
The Metropolis-Hastings engine. The first execution that is possible is the first sample; every
later step is one proposal, and its outcome, kept or brought back, is the next sample.
-/

namespace Posterior

structure MetropolisHastings where
  chain : Chain := {}
  /-- How many samples are recorded. -/
  steps : Nat := 0
  histogram : Histogram := {}
  metrics : Metrics := {}
  deriving Inhabited

namespace MetropolisHastings

/-- What a run is about: where executions start and how many samples are wanted. -/
structure Task where
  id : HandlerId
  entry : Continuation
  store : Store
  iterations : Nat

variable {α : Type}

def onChain (move : Move α) : Run MetropolisHastings α :=
  Chain.within (·.chain) (fun c e => { e with chain := c }) move

/-- Starts an execution from the entry of the program, with an empty trace. -/
def start (task : Task) : Run MetropolisHastings Resume := do
  Run.modifyEngine fun e =>
    { e with chain := {}, metrics.executions := e.metrics.executions + 1 }
  return .carryOn task.entry task.store

/-- Observes the value that the chain holds. -/
def observe : Run MetropolisHastings Unit := do
  let e ← Run.engine
  match e.chain.value with
  | some value =>
    Run.setEngine { e with histogram := e.histogram.observe value, steps := e.steps + 1 }
  | none => Run.fail (.missingReturnValue e.steps)

def countAccepted : Run MetropolisHastings Unit :=
  Run.modifyEngine fun e => { e with metrics.accepted := e.metrics.accepted + 1 }

/-- Records a step. -/
def conclude (ending : Ending (Option Value)) : Run MetropolisHastings Unit := do
  match ending with
  | .finished value => if ← onChain (Chain.decide 0 value) then countAccepted
  | .unchanged => countAccepted
  Run.modifyEngine fun e => { e with metrics.proposals := e.metrics.proposals + 1 }
  observe

def finish (task : Task) : Run MetropolisHastings (Control Empirical) := do
  let e ← Run.engine
  let distribution ← Run.ofExcept (Empirical.ofHistogram e.histogram)
  Run.restore task.id
  return .done (distribution.withAcceptanceRatio
    (Numeric.ofCount e.metrics.accepted / Numeric.ofCount task.iterations))

/-- Proposes until an execution is under way or no step is left. -/
def advance (task : Task) : Nat → Run MetropolisHastings (Control Empirical)
  | 0 => finish task
  | left + 1 => do
    match ← onChain Chain.propose with
    | .resume next => return .resume next
    | .halted =>
      conclude (.finished none)
      advance task left
    | .unchanged =>
      conclude .unchanged
      advance task left

/-- Settles the execution that has just ended. An impossible first execution is started again. -/
def settle (task : Task) (ending : Ending (Option Value)) :
    Run MetropolisHastings (Control Empirical) := do
  let e ← Run.engine
  match ending with
  | .finished _ =>
    if e.steps = 0 && e.chain.score == Numeric.negInf then
      return .resume (← start task)
  | .unchanged => pure ()
  conclude ending
  advance task (task.iterations - (← Run.engine).steps)

def handler (task : Task) : Handler MetropolisHastings Empirical where
  name := "mh"
  id := task.id
  onSample choice deliver := do
    match ← onChain (Chain.site choice deliver false) with
    | .resume next => return .resume next
    | .halted => settle task (.finished none)
    | .unchanged => settle task .unchanged
  onFactor point resume := do
    Run.modifyEngine fun e => { e with chain := e.chain.factor point.logWeight }
    if (← Run.engine).chain.score == Numeric.negInf then settle task (.finished none)
    else return .resume (.carryOn resume point.store)
  onExit _ value := settle task (.finished (some value))

/-- Checks the parameters and installs the engine. -/
def install (config : MetropolisConfig) (program : Program) (address : Address) (store : Store) :
    InContext Task := do
  InContext.ofExcept config.validate
  let id ← InContext.install "mh"
  return { id, entry := program.entry address, store, iterations := config.iterations }

/-- The marginal of a program. -/
def run (fuel : Nat) (config : MetropolisConfig) (program : Program) (address : Address)
    (store : Store) : InContext Inference := do
  let task ← install config program address store
  let (distribution, engine) ← Run.inContext
    (do (handler task).drive fuel (← start task)) {}
  return ⟨distribution, engine.metrics⟩

end MetropolisHastings

end Posterior
