import Posterior.Chain.Basic
import Posterior.Population.Basic

/-!
Moving one particle. The choices of a particle from its floor on are the trace of a chain, which
takes a number of steps on the particle's own execution. A particle parked at a factor stays at
that factor: a new execution is cut off there, and one that exits before it is impossible.
-/

namespace Posterior

/-- Where a particle is parked. -/
structure Frontier where
  resume : Continuation
  store : Store

instance : Inhabited Frontier := ⟨⟨default, default⟩⟩

structure Mover where
  chain : Chain
  frontier : Frontier
  /-- Steps that are not settled yet. -/
  remaining : Nat := 0
  /-- Where the value of every step is observed. -/
  histogram : Option Histogram := none
  proposals : Nat := 0
  accepted : Nat := 0
  deriving Inhabited

namespace Mover

/-- The handler under which a particle is moved, the number of choices below its floor, and the
number of factors at which executions are cut off; without it they run to their exit. -/
structure Task where
  id : HandlerId
  frozen : Nat
  limit : Option Nat

/-- An execution that ends with a value, parked at a frontier if it reached one. -/
structure Outcome where
  value : Option Value
  frontier : Option Frontier

def Outcome.impossible : Outcome := ⟨none, none⟩

variable {α : Type}

def onChain (move : Move α) : Run Mover α :=
  Chain.within (·.chain) (fun c e => { e with chain := c }) move

/-- Observes the value that the chain holds. -/
def observe (e : Mover) : Mover :=
  match e.histogram, e.chain.value with
  | some h, some value => { e with histogram := some (h.observe value) }
  | _, _ => e

def accept (e : Mover) (frontier : Option Frontier) : Mover :=
  { e with accepted := e.accepted + 1, frontier := frontier.getD e.frontier }

/-- Settles a step: an execution that is kept brings its frontier along. -/
def conclude (task : Task) (ending : Ending Outcome) : Run Mover Unit := do
  match ending with
  | .finished outcome =>
    if ← onChain (Chain.decide task.frozen outcome.value) then
      Run.modifyEngine (·.accept outcome.frontier)
  | .unchanged => Run.modifyEngine (·.accept none)
  Run.modifyEngine observe

/-- Proposes until an execution is under way or no step is left. -/
def advance (task : Task) : Nat → Run Mover (Option Resume)
  | 0 => return none
  | left + 1 => do
    Run.modifyEngine fun e => { e with proposals := e.proposals + 1, remaining := left }
    match ← onChain Chain.propose with
    | .resume next => return some next
    | .halted =>
      conclude task (.finished .impossible)
      advance task left
    | .unchanged =>
      conclude task .unchanged
      advance task left

def settle (task : Task) (ending : Ending Outcome) : Run Mover (Control Unit) := do
  conclude task ending
  match ← advance task (← Run.engine).remaining with
  | some next => return .resume next
  | none =>
    Run.restore task.id
    return .done ()

def handler (task : Task) : Handler Mover Unit where
  name := "rejuvenator"
  id := task.id
  onSample choice deliver := do
    match ← onChain (Chain.site choice deliver false) with
    | .resume next => return .resume next
    | .halted => settle task (.finished .impossible)
    | .unchanged => settle task .unchanged
  onFactor point resume := do
    Run.modifyEngine fun e => { e with chain := e.chain.factor point.logWeight }
    let chain := (← Run.engine).chain
    if chain.score == Numeric.negInf then settle task (.finished .impossible)
    else if task.limit = some chain.factors then
      settle task (.finished ⟨chain.value, some ⟨resume, point.store⟩⟩)
    else return .resume (.carryOn resume point.store)
  onExit store value := do
    if task.limit.isSome then
      Run.modifyEngine fun e => { e with chain := { e.chain with score := Numeric.negInf } }
      settle task (.finished .impossible)
    else
      settle task (.finished ⟨some value, some ⟨(← Run.engine).frontier.resume, store⟩⟩)

/-- Takes the steps. -/
def take (task : Task) (fuel steps : Nat) : Run Mover Unit := do
  match ← Run.guarding task.id (advance task steps) with
  | some next => (handler task).drive fuel next
  | none => Run.restore task.id

end Mover

/-- A particle after its last step, and what the steps came to. -/
structure Rejuvenated where
  particle : Particle
  proposals : Nat
  accepted : Nat
  histogram : Option Histogram

/-- A particle that is not moved is observed as it is, once for every step. -/
def observeIdle (particle : Particle) (steps : Nat) (h : Histogram) : Histogram :=
  match particle.value with
  | some value => h.observeAll (List.replicate steps value)
  | none => h

/-- Whether there is anything to move: an execution that is possible, choices from the floor on,
and steps to take. -/
def Particle.movable (p : Particle) (steps : Nat) : Bool :=
  p.score != Numeric.negInf && !(p.trace.drop p.regenFloor).isEmpty && steps != 0

/-- How many choices lie below the floor. -/
def Particle.frozen (p : Particle) : Nat := min p.regenFloor p.trace.length

/-- The particle in the state that its chain has reached. -/
def Particle.adopt (p : Particle) (moved : Mover) (trace : Trace) : Particle :=
  { p with
    resume := moved.frontier.resume
    store := moved.frontier.store
    score := moved.chain.score
    trace := trace
    value := moved.chain.value }

/-- Moves a particle by `steps` steps of its chain. The trace below its floor stays as it is, and
the value after every step is observed if there is a histogram. -/
def rejuvenate (fuel : Nat) (particle : Particle) (limit : Option Nat) (steps : Nat)
    (histogram : Option Histogram) : InContext Rejuvenated := do
  if !particle.movable steps then
    return ⟨particle, 0, 0, histogram.map (observeIdle particle steps)⟩
  let frozen := particle.frozen
  let id ← InContext.install "rejuvenator"
  let ((), moved) ← (Mover.take { id, frozen, limit } fuel steps).inContext {
    chain := { trace := particle.trace.drop frozen, score := particle.score, value := particle.value }
    frontier := ⟨particle.resume, particle.store⟩
    histogram }
  let trace ← InContext.ofExcept (particle.trace.splice frozen moved.chain.trace)
  return ⟨particle.adopt moved trace, moved.proposals, moved.accepted, moved.histogram⟩

end Posterior
