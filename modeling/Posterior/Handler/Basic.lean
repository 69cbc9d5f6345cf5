import Posterior.Context
import Posterior.Program

/-!
Handlers and the loop that drives them. A handler answers each effect of a program by naming what
runs next, or by being done. The loop lets a handler act only while it is the active one and never
shows it a weight that is NaN; when it fails, the handler and all above it leave the stack.
-/

namespace Posterior

/-- Why a run stops short of a result. -/
inductive Stop where
  | failed (cause : Failure)
  /-- The bound on the number of effects is used up. -/
  | outOfFuel

/-- A stretch of work in a context, which outlives it even if it stops short. -/
abbrev InContext := EStateM Stop Context

namespace InContext

variable {α : Type}

def fail (cause : Failure) : InContext α := throw (.failed cause)

def ofExcept : Except Failure α → InContext α
  | .ok a => pure a
  | .error e => fail e

/-- Draws from the generator of the context. -/
def draw (d : Draw α) : InContext α := fun c =>
  match d c.rng with
  | .ok a g => .ok a { c with rng := g }
  | .error e g => .error (.failed e) { c with rng := g }

def install (name : String) : InContext HandlerId := fun c =>
  let (id, c) := c.install name
  .ok id c

def ensureActive (id : HandlerId) : InContext Unit := do
  ofExcept ((← get).ensureActive id)

def restore (id : HandlerId) : InContext Unit := do
  set (← ofExcept ((← get).restore id))

def unwind (id : HandlerId) : InContext Unit := modify (·.unwind id)

end InContext

/-- The state of an engine together with the context that it runs in. -/
structure Session (σ : Type) where
  engine : σ
  context : Context

/-- A stretch of work of an engine. -/
abbrev Run (σ : Type) := EStateM Stop (Session σ)

namespace Run

variable {σ α : Type}

def fail (cause : Failure) : Run σ α := throw (.failed cause)

def engine : Run σ σ := return (← get).engine

def setEngine (e : σ) : Run σ Unit := modify fun s => { s with engine := e }

def modifyEngine (f : σ → σ) : Run σ Unit := modify fun s => { s with engine := f s.engine }

/-- Works on the context alone. -/
def onContext (work : InContext α) : Run σ α := fun s =>
  match work s.context with
  | .ok a c => .ok a { s with context := c }
  | .error stop c => .error stop { s with context := c }

def ofExcept (result : Except Failure α) : Run σ α := onContext (.ofExcept result)

def draw (d : Draw α) : Run σ α := onContext (.draw d)

def restore (id : HandlerId) : Run σ Unit := onContext (.restore id)

/-- If the work stops short, `id` and all above it leave the stack. -/
def guarding (id : HandlerId) (work : Run σ α) : Run σ α := fun s =>
  match work s with
  | .ok a s => .ok a s
  | .error stop s => .error stop { s with context := s.context.unwind id }

/-- Starts an engine on a context and hands back what is left of it. -/
def inContext (work : Run σ α) (e : σ) : InContext (α × σ) := fun c =>
  match work ⟨e, c⟩ with
  | .ok a s => .ok (a, s.engine) s.context
  | .error stop s => .error stop s.context

end Run

/-- What a handler wants after an effect. -/
inductive Control (α : Type) where
  | resume (next : Resume)
  | done (result : α)

structure Handler (σ α : Type) where
  name : String
  id : HandlerId
  onSample : Choice → Delivery → Run σ (Control α)
  onFactor : Factor → Continuation → Run σ (Control α)
  onExit : Store → Value → Run σ (Control α)

namespace Handler

variable {σ α : Type}

/-- One effect: the handler must be active, and a factor must weigh something. -/
def answer (h : Handler σ α) (step : Step) : Run σ (Control α) := do
  Run.ofExcept ((← get).context.ensureActive h.id (some h.name))
  match step with
  | .sample choice deliver => h.onSample choice deliver
  | .factor point resume =>
    if point.logWeight.isNaN then Run.fail (.factorNaN h.name point.address)
    else h.onFactor point resume
  | .exit store value => h.onExit store value

/-- Answers effect after effect until the handler is done, at most `fuel` of them. -/
def dispatch (h : Handler σ α) : Nat → Resume → Run σ α
  | 0, _ => throw .outOfFuel
  | fuel + 1, next => do
    match ← h.answer next.invoke with
    | .resume next => dispatch h fuel next
    | .done result => return result

/-- Dispatches for a handler that is installed, and unwinds it if it stops short. -/
def drive (h : Handler σ α) (fuel : Nat) (start : Resume) : Run σ α :=
  Run.guarding h.id (h.dispatch fuel start)

end Handler

end Posterior
