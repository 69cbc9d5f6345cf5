import Posterior.Distribution.Basic
import Posterior.Numeric.LogSpace
import Posterior.Random.Categorical

/-!
Residual resampling. A particle is expected to leave `exp (w - mean)` copies; it keeps the whole
part of that number for certain, and the places that are left are filled in proportion to the
fractional parts.
-/

namespace Posterior

open Numeric

/-- The parents of a new population of the same size. The places that were drawn come first, then
the copies that were kept, in the order of their parents. -/
structure Resampled (n : Nat) where
  ancestors : Vector (Fin n) n
  logMeanWeight : Float
  retained : Nat

namespace Resampling

def expectedCopies (mean weight : Float) : Float := exp (weight - mean)

def copies (mean weight : Float) : Nat := toCount (wholePart (expectedCopies mean weight))

def remainder (mean weight : Float) : Float :=
  expectedCopies mean weight - wholePart (expectedCopies mean weight)

/-- Every index as often as it has certain copies, cut off at the size of the population. -/
def kept {n : Nat} (mean : Float) (weights : Vector Float n) : List (Fin n) :=
  ((List.finRange n).flatMap fun i => List.replicate (copies mean (weights.get i)) i).take n

theorem length_kept_le {n : Nat} (mean : Float) (weights : Vector Float n) :
    (kept mean weights).length ≤ n := by
  rw [kept, List.length_take]
  exact Nat.min_le_left ..

/-- The index at which a mark falls. Rounding can carry the mark past the end, where it falls on
the last weight above zero. -/
def indexAt {n : Nat} (mark : Float) (weights : Vector Float n) (pos : 0 < n) : Fin n :=
  match h : Random.indexAt? mark weights.toList with
  | some i => ⟨i, by simpa using Random.indexAt?_lt h⟩
  | none =>
    match h : Random.lastPositive? weights.toList with
    | some i => ⟨i, by simpa using Random.lastPositive?_lt h⟩
    | none => ⟨n - 1, by omega⟩

/-- An index in proportion to the weights, any index if they are all zero. -/
def multinomial {n : Nat} (weights : Vector Float n) (pos : 0 < n) : Draw (Fin n) := do
  if 0 < total weights.toList then
    let mark := (← Draw.uniform) * total weights.toList
    return indexAt mark weights pos
  else Draw.below n pos

/-- As many indices as asked for. -/
def multinomials {n : Nat} (weights : Vector Float n) (pos : 0 < n) :
    (k : Nat) → Draw { is : List (Fin n) // is.length = k }
  | 0 => return ⟨[], rfl⟩
  | k + 1 => do
    let i ← multinomial weights pos
    let ⟨rest, h⟩ ← multinomials weights pos k
    return ⟨i :: rest, by simp [h]⟩

def nanIndex? {n : Nat} (weights : Vector Float n) : Option Nat :=
  weights.toList.findIdx? Float.isNaN

/-- The new population: the drawn places, then the kept copies. -/
def assemble {n : Nat} (mean : Float) (weights : Vector Float n)
    (drawn : { is : List (Fin n) // is.length = n - (kept mean weights).length }) : Resampled n where
  ancestors := ⟨(drawn.1 ++ kept mean weights).toArray, by
    have := length_kept_le mean weights
    have := drawn.2
    simp only [List.size_toArray, List.length_append]
    omega⟩
  logMeanWeight := mean
  retained := (kept mean weights).length

/-- Resamples by residuals; `none` if all weights are impossible, in which case nothing is drawn. -/
def residual {n : Nat} (weights : Vector Float n) : Draw (Option (Resampled n)) := do
  if let some particle := nanIndex? weights then
    throw (.weightNaN particle)
  let mean := logMeanExp weights.toList
  if mean == negInf then return none
  if pos : 0 < n then
    let drawn ← multinomials (weights.map (remainder mean)) pos (n - (kept mean weights).length)
    return some (assemble mean weights drawn)
  else return none

end Resampling

end Posterior
