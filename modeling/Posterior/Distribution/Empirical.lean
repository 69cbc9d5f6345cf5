import Posterior.Distribution.Basic
import Posterior.Histogram

/-!
Empirical distributions: normalised histograms. Every inference ends in one, and it can be drawn
from and scored like any other distribution.
-/

namespace Posterior

structure Empirical where
  support : List (Value × Float)
  logNormalizer : Float
  acceptanceRatio : Option Float
  samples : Nat
  deriving Inhabited

namespace Empirical

/-- Only a finite mass above zero can be shared out. -/
def canNormalize (h : Histogram) : Bool :=
  !h.buckets.isEmpty && 0 < h.total && h.total.isFinite

def ofHistogram (h : Histogram) : Except Failure Empirical :=
  if canNormalize h then
    .ok { support := h.buckets.map fun b => (b.1, b.2 / h.total)
          logNormalizer := 0
          acceptanceRatio := none
          samples := h.observations }
  else .error (.emptyHistogram h.buckets.length h.total)

def withLogNormalizer (d : Empirical) (x : Float) : Empirical := { d with logNormalizer := x }

def withAcceptanceRatio (d : Empirical) (x : Float) : Empirical :=
  { d with acceptanceRatio := some x }

def probability (d : Empirical) (value : Value) : Float := Histogram.lookup value d.support

def better (best : Value × Float) (row : Value × Float) : Value × Float :=
  if best.2 < row.2 then row else best

/-- The most probable value, the first of several. -/
def mode? (d : Empirical) : Option Value :=
  match d.support with
  | [] => none
  | row :: rest => some (rest.foldl better row).1

def expectation (d : Empirical) (f : Value → Float) : Float :=
  Numeric.total (d.support.map fun row => row.2 * f row.1)

/-- The first value at which the running sum of probabilities passes the mark. -/
def valueAt? (mark acc : Float) : List (Value × Float) → Option Value
  | [] => none
  | (value, p) :: rest => if mark < acc + p then some value else valueAt? mark (acc + p) rest

def draw (d : Empirical) : Draw Value := do
  let mark ← Draw.uniform
  match valueAt? mark 0 d.support with
  | some value => return value
  | none =>
    match d.support.getLast? with
    | some row => return row.1
    | none => throw .emptySupport

/-- The empirical distribution as a distribution; it takes no parameters. -/
def distribution (d : Empirical) : Distribution where
  name := "empirical"
  draw _ := d.draw
  score _ value := .ok (Numeric.ln (d.probability value))

theorem ofHistogram_samples {h : Histogram} {d : Empirical} (e : ofHistogram h = .ok d) :
    d.samples = h.observations := by
  unfold ofHistogram at e
  split at e
  · cases e; rfl
  · cases e

end Empirical

end Posterior
