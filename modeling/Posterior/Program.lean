import Posterior.Address
import Posterior.Distribution.Basic
import Posterior.Store

/-!
Programs. A program runs until it performs an effect and is suspended there: it hands over what the
effect asks for together with the continuation that carries on. Nothing runs until a continuation
is applied, so one suspended execution can be resumed many times.
-/

namespace Posterior

/-- A random choice that a program asks for. -/
structure Choice where
  store : Store
  address : Address
  dist : Distribution
  params : List Value
  deriving Inhabited

/-- A log weight that a program puts on its execution. -/
structure Factor where
  store : Store
  address : Address
  logWeight : Float

/-- What a program does next. Along every run of chosen values a program comes to its exit: a coin that
is flipped until it shows heads is a program only with a bound on the flips, which no run need reach. -/
inductive Step where
  | sample (choice : Choice) (deliver : Store → Value → Step)
  | factor (point : Factor) (resume : Store → Step)
  | exit (store : Store) (value : Value)

instance : Inhabited Step := ⟨.exit default default⟩

/-- Carries on from a store: after a factor, or from the start of a program. -/
abbrev Continuation := Store → Step

/-- Carries on from a store and a chosen value. -/
abbrev Delivery := Store → Value → Step

abbrev Program := Store → Address → Step

/-- The continuation that starts a fresh execution at an address. -/
def Program.entry (p : Program) (address : Address) : Continuation := fun store => p store address

/-- Which continuation a handler wants to run next, and with what. -/
inductive Resume where
  | carryOn (resume : Continuation) (store : Store)
  | deliver (deliver : Delivery) (store : Store) (value : Value)

def Resume.invoke : Resume → Step
  | .carryOn k store => k store
  | .deliver k store value => k store value

def sample (store : Store) (address : Address) (dist : Distribution) (params : List Value)
    (deliver : Delivery) : Step :=
  .sample ⟨store, address, dist, params⟩ deliver

def factor (store : Store) (address : Address) (logWeight : Float) (resume : Continuation) : Step :=
  .factor ⟨store, address, logWeight⟩ resume

def exit (store : Store) (value : Value) : Step := .exit store value

/-- A choice weighed as soon as it is made. The factor stands at an address below the choice. -/
def sampleWithFactor (store : Store) (address : Address) (dist : Distribution)
    (params : List Value) (score : Value → Float) (deliver : Delivery) : Step :=
  sample store address dist params fun store value =>
    factor store (address.child "swf2") (score value) fun store => deliver store value

end Posterior
