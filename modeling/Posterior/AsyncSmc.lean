import Posterior.Config
import Posterior.Handler.Basic
import Posterior.Inference
import Posterior.Numeric.LogSpace

/-!
Asynchronous anytime sequential Monte Carlo. There is no barrier. Suspended particles wait in a
bounded buffer; each time a particle leaves the processor, either a fresh one is launched or a
waiting one resumed. At a factor the arriving particle is compared with the running mean weight of
the arrivals there, and is given no child, one, or several. A session can be resumed with a larger
budget of particles.
-/

namespace Posterior

open Numeric

structure AsyncParticle where
  resume : Continuation
  store : Store
  weight : Float := 0
  /-- The weight with the multiplicity taken in. -/
  finalWeight : Float := 0
  /-- The latest factor that the particle has passed, absent if it is fresh. -/
  factorIndex : Option Nat := none
  /-- How many executions are still to be released from the buffer. -/
  children : Nat := 0
  /-- How many executions the particle stands for. -/
  multiplicity : Float := 1
  value : Option Value := none

instance : Inhabited AsyncParticle := ⟨{ resume := default, store := default }⟩

namespace AsyncParticle

/-- One execution out of several that are owed. -/
def child (p : AsyncParticle) : AsyncParticle := { p with children := 1 }

def isFresh (p : AsyncParticle) : Bool := p.factorIndex.isNone

/-- The index of the next factor. -/
def nextIndex (p : AsyncParticle) : Nat :=
  match p.factorIndex with
  | none => 0
  | some i => i + 1

/-- The particle right after a factor. -/
def arrive (p : AsyncParticle) (point : Factor) (resume : Continuation) : AsyncParticle :=
  { p with
    weight := p.weight + point.logWeight
    resume := resume
    store := point.store
    factorIndex := some p.nextIndex }

def settleWeight (p : AsyncParticle) : AsyncParticle :=
  { p with finalWeight := ln p.multiplicity + p.weight }

def leave (p : AsyncParticle) (store : Store) (value : Value) : AsyncParticle :=
  { p with value := some value, store := store, weight := p.finalWeight }

end AsyncParticle

/-- What is known of the arrivals at one factor. -/
structure FactorStats where
  arrivals : Nat
  /-- The log-mean weight of the arrivals. -/
  meanWeight : Float
  totalChildren : Nat
  deriving Inhabited

structure AsyncSmc where
  id : HandlerId
  entry : Continuation
  store : Store
  buffer : List AsyncParticle
  bufferSize : Nat
  /-- The budget: how many particles must exit. -/
  target : Nat
  normalization : Normalization
  stats : Table Nat FactorStats := .empty
  exited : List AsyncParticle := []
  active : Option AsyncParticle := none
  /-- How many fresh particles have been started. -/
  launched : Nat := 0
  metrics : Metrics

instance : Inhabited AsyncSmc :=
  ⟨{ id := default, entry := default, store := default, buffer := [], bufferSize := 0, target := 0
     normalization := .finalWeights, metrics := {} }⟩

namespace AsyncSmc

variable {α : Type}

abbrev Work := Run AsyncSmc

/-- Three fifths of the buffer are filled with fresh particles at the start. Sizes are natural numbers
here: the product is not wrapped at the end of a machine word, nor is a budget that is raised. -/
def initialCount (bufferSize : Nat) : Nat := bufferSize * 3 / 5

def fresh (e : AsyncSmc) : AsyncParticle := { resume := e.entry, store := e.store }

/-- The particle at a position of the buffer, and what is left: a particle that owes several
executions stays with one fewer. -/
def release (i : Nat) : List AsyncParticle → Option (AsyncParticle × List AsyncParticle)
  | [] => none
  | p :: rest =>
    match i with
    | 0 =>
      if 1 < p.children then some (p.child, { p with children := p.children - 1 } :: rest)
      else some (p, rest)
    | i + 1 => (release i rest).map fun (q, rest) => (q, p :: rest)

/-- The particle that a draw stands for, a fresh one past the end of the buffer. -/
def pick (e : AsyncSmc) (i : Nat) : AsyncParticle × AsyncSmc :=
  match release i e.buffer with
  | some (p, buffer) => (p, { e with buffer })
  | none =>
    (e.fresh, { e with
      metrics.executions := e.metrics.executions + 1
      metrics.particlesSpawned := e.metrics.particlesSpawned + 1 })

/-- Puts a particle on the processor. -/
def activate (p : AsyncParticle) : Work Resume := do
  Run.modifyEngine fun e => { e with active := some p }
  return .carryOn p.resume p.store

def countLaunch (p : AsyncParticle) (e : AsyncSmc) : AsyncSmc :=
  if p.isFresh then { e with launched := e.launched + 1 } else e

/-- Starts the next particle: every waiting one and a fresh one are equally likely. -/
def launch : Work Resume := do
  let e ← Run.engine
  let i ← Run.draw (.below (e.buffer.length + 1) (Nat.succ_pos _))
  let (p, e) := e.pick i
  Run.setEngine (countLaunch p e)
  activate p

def takeActive : Work AsyncParticle := do
  let e ← Run.engine
  match e.active with
  | some p =>
    Run.setEngine { e with active := none }
    return p
  | none => Run.fail .noActiveParticle

/-- The mean weight at a factor once one more particle has arrived. -/
def updatedMean (stats : FactorStats) (weight multiplicity : Float) : Float :=
  let arrivals := ofCount stats.arrivals
  let ldenom := ln (arrivals + multiplicity)
  logSumExp [ln arrivals - ldenom + stats.meanWeight, ln multiplicity - ldenom + weight]

/-- How many children a particle gets whose weight is at or above the mean: the ratio rounded up
while few children are about, down otherwise, but at least one and within the budget. -/
def childrenOf (e : AsyncSmc) (stats : FactorStats) (logRatio : Float) : Float :=
  let ratio := exp logRatio
  let rounded :=
    if stats.totalChildren ≤ min e.bufferSize stats.arrivals then roundUp ratio
    else wholePart ratio
  bounded 1 (ofCount (max e.target 1)) rounded

/-- What a particle gets at a factor where others have been before it. -/
structure Offspring where
  children : Nat
  weight : Float
  mean : Float

/-- A particle below the mean survives with the chance that its weight bears to it. -/
def offspring (e : AsyncSmc) (stats : FactorStats) (weight multiplicity : Float) :
    Draw Offspring := do
  let mean := updatedMean stats weight multiplicity
  let logRatio := weight - mean
  if logRatio < 0 then
    if ln (← Draw.uniform) < logRatio then return ⟨1, mean, mean⟩
    else return ⟨0, negInf, mean⟩
  else
    let children := childrenOf e stats logRatio
    return ⟨toCount children, weight - ln children, mean⟩

/-- The particle with its children: on a full buffer it goes on alone and stands for them all. -/
def withOffspring (p : AsyncParticle) (full : Bool) (o : Offspring) : AsyncParticle :=
  if full then
    { p with
      multiplicity := p.multiplicity * ofCount o.children, children := 1, weight := o.weight }
  else { p with children := o.children, weight := o.weight }

def setStats (index : Nat) (stats : FactorStats) : Work Unit :=
  Run.modifyEngine fun e => { e with stats := e.stats.insert index stats }

/-- Drops the particle that was running and starts another. -/
def drop : Work Resume := do
  Run.modifyEngine fun e =>
    { e with metrics.particlesDropped := e.metrics.particlesDropped + 1 }
  launch

/-- Sends a particle on its way: into the buffer, or on if that is full. -/
def send (p : AsyncParticle) (full : Bool) : Work Resume := do
  if full then activate p.settleWeight
  else
    Run.modifyEngine fun e => { e with buffer := e.buffer ++ [p.settleWeight] }
    launch

/-- A particle arrives at the factor with the given index. -/
def arrival (p : AsyncParticle) (index : Nat) : Work Resume := do
  if p.weight == negInf then drop
  else
    let e ← Run.engine
    let full := e.bufferSize ≤ e.buffer.length
    match e.stats.get? index with
    | none =>
      setStats index ⟨1, p.weight, 1⟩
      send { p with children := 1 } full
    | some stats =>
      let o ← Run.draw (e.offspring stats p.weight p.multiplicity)
      setStats index ⟨stats.arrivals + 1, o.mean, stats.totalChildren + o.children⟩
      if o.children = 0 then drop
      else send (withOffspring p full o) full

/-- The estimate of the log normalizer. -/
def logNormalizer (e : AsyncSmc) : Float :=
  match e.normalization with
  | .finalWeights => logSumExp (e.exited.map (·.weight)) - ln (ofCount (max e.launched 1))
  | .lastFactorMean =>
    match e.stats.last? with
    | some (_, stats) => stats.meanWeight
    | none => 0

/-- The exited values, weighed against the greatest weight among them. -/
def histogram (e : AsyncSmc) : Histogram :=
  let top := greatest (e.exited.map (·.weight))
  e.exited.foldl (fun h p =>
    match p.value with
    | some value => h.add value (exp (p.weight - top))
    | none => h) {}

def distribution (e : AsyncSmc) : Except Failure Empirical := do
  return (← Empirical.ofHistogram e.histogram).withLogNormalizer e.logNormalizer

/-- Makes way for the handler below, with the marginal so far as the result. -/
def conclude : Work Empirical := do
  let e ← Run.engine
  let distribution ← Run.ofExcept e.distribution
  Run.restore e.id
  return distribution

def handler (id : HandlerId) : Handler AsyncSmc Empirical where
  name := "async-smc"
  id := id
  onSample choice deliver := do
    let value ← Run.draw (choice.dist.draw choice.params)
    return .resume (.deliver deliver choice.store value)
  onFactor point resume := do
    let p ← takeActive
    return .resume (← arrival (p.arrive point resume) p.nextIndex)
  onExit store value := do
    let p ← takeActive
    Run.modifyEngine fun e => { e with exited := e.exited ++ [p.leave store value] }
    let e ← Run.engine
    if e.exited.length < e.target then return .resume (← launch)
    else return .done (← conclude)

/-- Checks the parameters, fills the buffer and installs the engine. -/
def install (config : AsyncConfig) (program : Program) (address : Address) (store : Store) :
    InContext AsyncSmc := do
  InContext.ofExcept config.validate
  let id ← InContext.install "async-smc"
  let entry := program.entry address
  let count := initialCount config.bufferSize
  return {
    id, entry, store
    buffer := List.replicate count { resume := entry, store := store }
    bufferSize := config.bufferSize
    target := config.particles
    normalization := config.normalization
    metrics := .ofPopulation count }

/-- Runs until the budget has exited. -/
def drive (fuel : Nat) : Work Empirical := do
  let e ← Run.engine
  if e.target ≤ e.exited.length then conclude
  else
    let start ← launch
    (handler e.id).drive fuel start

/-- Raises the budget and runs again, with everything that was kept. The budget is a natural number; it
stands for a machine word as long as it fits in one. -/
def resume (fuel extra : Nat) : Work Empirical := do
  if extra = 0 then
    Run.fail (.zeroCount "extra" (some "async-smc"))
  let id ← Run.onContext (.install "async-smc")
  Run.modifyEngine fun e => { e with id, target := e.target + extra }
  drive fuel

/-- The marginal of a program. -/
def run (fuel : Nat) (config : AsyncConfig) (program : Program) (address : Address)
    (store : Store) : InContext Inference := do
  let engine ← install config program address store
  let (distribution, engine) ← (drive fuel).inContext engine
  return ⟨distribution, engine.metrics⟩

end AsyncSmc

end Posterior
