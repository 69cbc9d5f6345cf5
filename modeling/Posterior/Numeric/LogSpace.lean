import Posterior.Numeric.Elementary

/-!
Sums and means of weights held as logarithms. An impossible entry, negative infinity, adds nothing.
-/

namespace Posterior.Numeric

def isPossible (w : Float) : Bool := w != negInf

def possible (ws : List Float) : List Float := ws.filter isPossible

/-- The logarithm of the sum of the exponentials. -/
def logSumExp (ws : List Float) : Float :=
  let ws := possible ws
  let top := greatest ws
  if top == negInf then negInf
  else if top == posInf then posInf
  else top + ln (total (ws.map (fun w => exp (w - top))))

/-- The logarithm of the mean of the exponentials; impossible entries count in the mean. -/
def logMeanExp : List Float → Float
  | [] => negInf
  | w :: ws => logSumExp (w :: ws) - ln (ofCount (w :: ws).length)

/-- The square of the sum of weights over the sum of their squares, zero if all are impossible. -/
def effectiveSampleSize (ws : List Float) : Float :=
  let sum := logSumExp ws
  if sum == negInf then 0
  else exp (2 * sum - logSumExp (ws.map (2 * ·)))

theorem logSumExp_congr {xs ys : List Float} (h : possible xs = possible ys) :
    logSumExp xs = logSumExp ys := by
  simp only [logSumExp, h]

end Posterior.Numeric
