import Posterior.Numeric.Elementary
import Posterior.Value.Basic

/-!
Histograms gather mass by value. Buckets stay in the order in which their values were first seen
and keep the first of the equal values they were given.
-/

namespace Posterior

structure Histogram where
  buckets : List (Value × Float) := []
  observations : Nat := 0
  deriving Inhabited

namespace Histogram

def empty : Histogram := {}

/-- Adds to the bucket of an equal value; a new bucket starts from zero. -/
def addMass (value : Value) (mass : Float) : List (Value × Float) → List (Value × Float)
  | [] => [(value, 0 + mass)]
  | (v, m) :: rest =>
    if v == value then (v, m + mass) :: rest else (v, m) :: addMass value mass rest

def add (h : Histogram) (value : Value) (mass : Float) : Histogram :=
  { buckets := addMass value mass h.buckets, observations := h.observations + 1 }

def observe (h : Histogram) (value : Value) : Histogram := h.add value 1

def observeAll (h : Histogram) (values : List Value) : Histogram := values.foldl observe h

/-- The number beside the first equal value, zero if there is none. -/
def lookup (value : Value) (rows : List (Value × Float)) : Float :=
  ((rows.find? (·.1 == value)).map (·.2)).getD 0

def mass (h : Histogram) (value : Value) : Float := lookup value h.buckets

def total (h : Histogram) : Float := Numeric.total (h.buckets.map (·.2))

@[simp] theorem observations_add (h : Histogram) (value : Value) (mass : Float) :
    (h.add value mass).observations = h.observations + 1 := rfl

end Histogram

end Posterior
