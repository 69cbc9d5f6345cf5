import Posterior.Handler.Basic
import Posterior.Numeric.LogSpace
import Posterior.Trace.Basic

/-!
Chains: the state of single-site Metropolis-Hastings. A proposal rewinds the trace to one entry,
draws that choice anew and executes the program from there; choices whose addresses come up again
keep their values. Accepting keeps the new execution, rejecting brings back the old one.
-/

namespace Posterior

open Numeric

/-- The chance of accepting a new execution over the one before. A previous execution that is
impossible or has no choices always gives way, an impossible new one never gets in. -/
def acceptProb (score oldScore : Float) (length oldLength : Nat) (backward forward : Float) :
    Except Failure Float :=
  if oldScore == negInf || oldLength == 0 then .ok 1
  else if score == negInf then .ok 0
  else
    let forwardAll := forward - ln (ofCount oldLength)
    let backwardAll := backward - ln (ofCount length)
    let p := exp (score - oldScore + backwardAll - forwardAll)
    if p.isNaN then .error (.acceptanceNaN score oldScore forward backward)
    else .ok (if p < 1 then p else 1)

/-- The execution that a proposal may replace, the entry it regenerates, and the scores of the
choices that are drawn on the way there and on the way back. -/
structure Proposal where
  trace : Trace
  score : Float
  value : Option Value
  site : Nat
  forward : Float := 0
  backward : Float := 0

namespace Proposal

/-- A drawn choice counts on the way there, a replaced one on the way back. -/
def count (p : Proposal) (choiceScore : Float) (previous : Option Entry) (forced : Bool) :
    Proposal :=
  match previous, forced with
  | none, _ => { p with forward := p.forward + choiceScore }
  | some old, true =>
    { p with forward := p.forward + choiceScore, backward := p.backward + old.choiceScore }
  | some _, false => p

/-- The old entries from the regenerated one on that the new execution never reached. -/
def dropped (p : Proposal) (trace : Trace) : List Entry :=
  (p.trace.entries.drop p.site).filter fun e => !trace.contains e.address

/-- The score of the way back, the entries that were dropped included. -/
def wayBack (p : Proposal) (trace : Trace) : Float :=
  (p.dropped trace).foldl (fun sum e => sum + e.choiceScore) p.backward

end Proposal

structure Chain where
  trace : Trace := .empty
  score : Float := 0
  value : Option Value := none
  /-- How many factors the current execution has passed. -/
  factors : Nat := 0
  proposal : Option Proposal := none
  deriving Inhabited

/-- How a choice leaves the execution. -/
inductive Progress where
  | resume (next : Resume)
  /-- The execution has become impossible. -/
  | halted
  /-- The choice came out as before, and the chain is back where it was. -/
  | unchanged

/-- How a proposed execution ended. -/
inductive Ending (α : Type) where
  | finished (result : α)
  | unchanged

/-- A computation on a chain that draws random numbers. -/
abbrev Move := EStateM Failure (Chain × Rng)

namespace Chain

def get : Move Chain := return (← EStateM.get).1

def put (c : Chain) : Move Unit := EStateM.modifyGet fun s => ((), c, s.2)

def draw {α : Type} (d : Draw α) : Move α := fun s =>
  match d s.2 with
  | .ok a g => .ok a (s.1, g)
  | .error e g => .error e (s.1, g)

def ofExcept {α : Type} (result : Except Failure α) : Move α := draw (.ofExcept result)

/-- What the previous execution chose at an address. -/
def previous? (c : Chain) (a : Address) : Option Entry := c.proposal.bind (·.trace.get? a)

def rollBack (c : Chain) : Chain :=
  match c.proposal with
  | some p => { c with trace := p.trace, score := p.score, value := p.value, proposal := none }
  | none => c

/-- Puts a choice on record and adds its score. -/
def record (choice : Choice) (deliver : Delivery) (value : Value) (previous : Option Entry)
    (forced : Bool) : Move Progress := do
  let c ← get
  let choiceScore ← ofExcept do
    ensureNumber "score-nan" "choice score" (← choice.dist.score choice.params value)
  let trace ← ofExcept <| c.trace.push
    { choice, deliver, value, choiceScore, scoreBefore := c.score, factorsBefore := c.factors
      reused := previous.isSome && !forced }
  let score := c.score + choiceScore
  put { c with trace, score, proposal := c.proposal.map (·.count choiceScore previous forced) }
  if score == negInf then return .halted
  return .resume (.deliver deliver choice.store value)

/-- Meets a choice: a forced one is drawn anew, one that the previous execution made is reused, any
other is drawn. -/
def site (choice : Choice) (deliver : Delivery) (forced : Bool) : Move Progress := do
  let previous := (← get).previous? choice.address
  match previous, forced with
  | some old, false => record choice deliver old.value previous forced
  | some old, true =>
    let value ← draw (choice.dist.draw choice.params)
    if old.value == value then
      put (← get).rollBack
      return .unchanged
    record choice deliver value previous forced
  | none, _ => record choice deliver (← draw (choice.dist.draw choice.params)) none forced

/-- Passes a factor. -/
def factor (c : Chain) (logWeight : Float) : Chain :=
  { c with score := c.score + logWeight, factors := c.factors + 1 }

/-- The chain rewound to the entry that is to be drawn anew. -/
def rewind (c : Chain) (i : Nat) (e : Entry) : Chain :=
  { c with
    trace := c.trace.take i
    score := e.scoreBefore
    factors := e.factorsBefore
    proposal := some { trace := c.trace, score := c.score, value := c.value, site := i } }

/-- Picks an entry uniformly and draws it anew; without entries there is nothing to propose. -/
def propose : Move Progress := do
  let c ← get
  if nonempty : 0 < c.trace.entries.length then
    let i ← draw (.below c.trace.entries.length nonempty)
    match c.trace.entry? i with
    | some e =>
      put (c.rewind i e)
      site e.choice e.deliver true
    | none => ofExcept (.error (.regenOutOfRange i c.trace.length))
  else return .unchanged

/-- The acceptance probability of the execution that has just ended, `frozen` choices coming before
the trace of the chain. -/
def chance (c : Chain) (frozen : Nat) : Except Failure Float :=
  match c.proposal with
  | none => .ok 1
  | some p =>
    acceptProb c.score p.score (c.trace.length + frozen) (p.trace.length + frozen)
      (if c.score == negInf then p.backward else p.wayBack c.trace) p.forward

/-- Accepts or rejects the execution that has just ended with `value`. -/
def decide (frozen : Nat) (value : Option Value) : Move Bool := do
  let p ← ofExcept ((← get).chance frozen)
  let accepted := (← draw .uniform) < p
  if accepted then put { (← get) with value, proposal := none }
  else put (← get).rollBack
  return accepted

/-- A move of the chain inside an engine. -/
def within {σ α : Type} (chain : σ → Chain) (update : Chain → σ → σ) (move : Move α) : Run σ α :=
  fun s =>
    match move (chain s.engine, s.context.rng) with
    | .ok a (c, g) => .ok a ⟨update c s.engine, { s.context with rng := g }⟩
    | .error e (c, g) => .error (.failed e) ⟨update c s.engine, { s.context with rng := g }⟩

end Chain

end Posterior
