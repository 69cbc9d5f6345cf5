import Posterior.Histogram
import Posterior.Metrics
import Posterior.Population.Resampling
import Posterior.Trace.Basic

/-!
Populations: a fixed number of weighted executions, run in turn from factor to factor. When the
last of those still running has reached its factor, the population is resampled.
-/

namespace Posterior

/-- One execution of a population. -/
structure Particle where
  /-- Carries on after the latest factor. -/
  resume : Continuation
  store : Store
  weight : Float := 0
  /-- The log-joint of the execution so far. -/
  score : Float := 0
  /-- The choices so far; kept only by an engine that moves them. -/
  trace : Trace := .empty
  /-- The position in the trace before which restricted moves change nothing. -/
  regenFloor : Nat := 0
  /-- How many factors the execution has passed. -/
  factorCount : Nat := 0
  completed : Bool := false
  value : Option Value := none

namespace Particle

instance : Inhabited Particle := ⟨{ resume := default, store := default }⟩

/-- Parks the particle right after a factor. -/
def park (p : Particle) (point : Factor) (resume : Continuation) : Particle :=
  { p with
    weight := p.weight + point.logWeight
    resume := resume
    store := point.store
    factorCount := p.factorCount + 1 }

def complete (p : Particle) (store : Store) (value : Value) : Particle :=
  { p with completed := true, value := some value, store := store }

def running (p : Particle) : Bool := !p.completed

end Particle

structure Population (n : Nat) where
  particles : Vector Particle n
  active : Fin n

namespace Population

variable {n : Nat}

/-- Particles about to run from the entry of a program; the first one is active. -/
def start (pos : 0 < n) (entry : Continuation) (store : Store) : Population n where
  particles := .replicate n { resume := entry, store := store }
  active := ⟨0, pos⟩

def current (p : Population n) : Particle := p.particles.get p.active

def setParticle (p : Population n) (i : Fin n) (particle : Particle) : Population n :=
  { p with particles := p.particles.set i.val particle i.isLt }

def updateCurrent (p : Population n) (f : Particle → Particle) : Population n :=
  p.setParticle p.active (f p.current)

def activate (p : Population n) (i : Fin n) : Population n := { p with active := i }

def isRunning (p : Population n) (i : Fin n) : Bool := (p.particles.get i).running

/-- The indices after the active one, then those up to it. -/
def turns (p : Population n) : List (Fin n) :=
  (List.finRange n).filter (p.active < ·) ++ (List.finRange n).filter (· ≤ p.active)

def nextRunning? (p : Population n) : Option (Fin n) := p.turns.find? p.isRunning

def firstRunning? (p : Population n) : Option (Fin n) := (List.finRange n).find? p.isRunning

def lastRunning? (p : Population n) : Option (Fin n) :=
  (List.finRange n).reverse.find? p.isRunning

/-- Whether the active particle closes the round. -/
def atBarrier (p : Population n) : Bool := p.lastRunning? == some p.active

def resumeCurrent (p : Population n) : Resume := .carryOn p.current.resume p.current.store

def weights (p : Population n) : Vector Float n := p.particles.map (·.weight)

def logNormalizer (p : Population n) : Float := Numeric.logMeanExp p.weights.toList

def setWeights (p : Population n) (w : Float) : Population n :=
  { p with particles := p.particles.map fun particle => { particle with weight := w } }

/-- The children of the chosen parents, every one with the same weight. -/
def descend (p : Population n) (r : Resampled n) : Population n :=
  ({ p with particles := r.ancestors.map p.particles.get }).setWeights r.logMeanWeight

def distinct (ancestors : Vector (Fin n) n) : Nat :=
  (List.finRange n).countP ancestors.toList.contains

/-- Resamples the whole population. If every weight is impossible, a strict population fails and a
lenient one goes on as it is. -/
def resample (p : Population n) (strict : Bool) (algorithm : String) (index : Nat) :
    Draw (Population n × Barrier) := do
  let effectiveSampleSize := Numeric.effectiveSampleSize p.weights.toList
  match ← Resampling.residual p.weights with
  | some r =>
    return (p.descend r, {
      index, effectiveSampleSize
      logMeanWeight := r.logMeanWeight
      distinctAncestors := distinct r.ancestors
      degenerate := false })
  | none =>
    if strict then throw (.allWeightsImpossible algorithm index n)
    return (p.setWeights Numeric.negInf, {
      index, effectiveSampleSize
      logMeanWeight := Numeric.negInf
      distinctAncestors := n
      degenerate := true })

/-- The values of the completed particles, in their order. -/
def values (p : Population n) : List Value := p.particles.toList.filterMap (·.value)

def histogram (p : Population n) : Histogram := Histogram.empty.observeAll p.values

end Population

end Posterior
