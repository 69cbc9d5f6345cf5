import Posterior.Distribution.Basic
import Posterior.Numeric.Elementary
import Posterior.Random.Categorical

/-! The elementary distributions: a coin, a weighted index, a choice among items, the normal. -/

namespace Posterior.Distribution

open Numeric

def realParam (name : String) (params : List Value) (i : Nat) : Except Failure Float :=
  match params[i]?.bind Value.real? with
  | some x => .ok x
  | none => .error (.badParameters name .notNumeric params.length)

def listParam (name : String) (params : List Value) (i : Nat) : Except Failure (List Value) :=
  match params[i]?.bind Value.list? with
  | some items => .ok items
  | none => .error (.badParameters name .notList params.length)

def logOfCoin (p : Float) : Value → Float
  | .bool true => ln p
  | .bool false => ln (1 - p)
  | _ => negInf

/-- A coin that shows true with the probability given. -/
def bernoulli : Distribution where
  name := "bernoulli"
  draw params := do
    let p ← Draw.ofExcept (realParam "bernoulli" params 0)
    return .bool ((← Draw.uniform) < p)
  score params value := do
    let p ← realParam "bernoulli" params 0
    return logOfCoin p value

def isWeight (x : Float) : Bool := 0 ≤ x && x.isFinite

def weightOf (arity : Nat) (value : Value) : Except Failure Float :=
  match value.real? with
  | some x =>
    if isWeight x then .ok x else .error (.badParameters "discrete" .badWeight arity)
  | none => .error (.badParameters "discrete" .badWeight arity)

def discreteWeights (params : List Value) : Except Failure (List Float) := do
  (← listParam "discrete" params 0).mapM (weightOf params.length)

/-- An index in proportion to weights that need not sum to one. -/
def discrete : Distribution where
  name := "discrete"
  draw params := do
    let weights ← Draw.ofExcept (discreteWeights params)
    if 0 < total weights then
      let mark := (← Draw.uniform) * total weights
      return .int (Int64.ofNat ((Random.indexAt? mark weights).getD (weights.length - 1)))
    else throw (.badParameters "discrete" .zeroTotal params.length)
  score params value := do
    let weights ← discreteWeights params
    match value with
    | .int i =>
      if i < 0 then return negInf
      match weights[i.toInt.toNat]? with
      | some w => return ln (w / total weights)
      | none => return negInf
    | _ => return negInf

/-- One of the listed items, each place equally likely. -/
def uniformDraw : Distribution where
  name := "uniform-draw"
  draw params := do
    let items ← Draw.ofExcept (listParam "uniform-draw" params 0)
    if pos : 0 < items.length then
      return items[← Draw.below items.length pos]
    else throw (.badParameters "uniform-draw" .noItems params.length)
  score params value := do
    let items ← listParam "uniform-draw" params 0
    return ln (ofCount (items.countP (· == value)) / ofCount items.length)

/-- Twice the ratio of circumference to diameter. -/
def fullTurn : Float := 2 * Float.ofBits 0x400921FB54442D18

def logOfBell (z : Float) : Float := -0.5 * z * z

/-- The log-density at `x`. -/
def logOfNormal (mean deviation x : Float) : Float :=
  logOfBell ((x - mean) / deviation) - ln deviation - 0.5 * ln fullTurn

/-- The normal distribution, drawn from two uniform numbers by their polar form. -/
def gaussian : Distribution where
  name := "gaussian"
  draw params := do
    let mean ← Draw.ofExcept (realParam "gaussian" params 0)
    let deviation ← Draw.ofExcept (realParam "gaussian" params 1)
    let u := 1 - (← Draw.uniform)
    let v ← Draw.uniform
    let z := (-2 * ln u).sqrt * cos (fullTurn * v)
    return .real (mean + deviation * z)
  score params value := do
    let mean ← realParam "gaussian" params 0
    let deviation ← realParam "gaussian" params 1
    if 0 < deviation then
      match value.real? with
      | some x => return logOfNormal mean deviation x
      | none => return negInf
    else throw (.badParameters "gaussian" .badDeviation params.length)

end Posterior.Distribution
