import Posterior.Failure
import Posterior.Random.Generator
import Posterior.Value.Basic

/-!
Distributions draw values and score them. A draw changes the generator whether it succeeds or not;
a score is a log-probability.
-/

namespace Posterior

/-- A computation that draws from a generator and may fail. -/
abbrev Draw := EStateM Failure Rng

namespace Draw

def uniform : Draw Float := fun g =>
  let (x, g) := g.uniform
  .ok x g

def below (n : Nat) (pos : 0 < n) : Draw (Fin n) := fun g =>
  let (i, g) := g.below n pos
  .ok i g

def ofExcept {α : Type} : Except Failure α → Draw α
  | .ok a => pure a
  | .error e => throw e

end Draw

structure Distribution where
  name : String
  draw : List Value → Draw Value
  score : List Value → Value → Except Failure Float

instance : Inhabited Distribution := ⟨⟨"", fun _ => pure .unit, fun _ _ => pure 0⟩⟩

/-- Numbers other than NaN pass. -/
def ensureNumber (code quantity : String) (x : Float) : Except Failure Float :=
  if x.isNaN then .error (.notANumber code quantity) else .ok x

end Posterior
