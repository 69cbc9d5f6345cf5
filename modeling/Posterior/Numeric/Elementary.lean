/-!
Real functions on doubles. Their values at the points that every platform agrees on (the infinities,
zero, one and two, and whatever is too small to be told from zero) are spelled out; everywhere else
they are the platform's, which lie in the range that the function has there.
-/

namespace Posterior.Numeric

def negInf : Float := Float.ofBits 0xFFF0000000000000

def posInf : Float := Float.ofBits 0x7FF0000000000000

def nan : Float := Float.ofBits 0x7FF8000000000000

/-- A value that is known to lie between two numbers. -/
def within (lo hi x : Float) : Float :=
  if lo ≤ x ∧ x ≤ hi then x else lo

/-- The logarithm of two, to the nearest double. The double nearest to its exponential is two again. -/
def lnTwo : Float := Float.ofBits 0x3FE62E42FEFA39EF

/-- Below -746 the exponential is less than half the least double. -/
def exp (x : Float) : Float :=
  if x.isNaN then nan
  else if x == negInf then 0
  else if x == posInf then posInf
  else if x == 0 then 1
  else if x == lnTwo then 2
  else if x < -746 then 0
  else if x < 0 then within 0 1 x.exp
  else within 1 posInf x.exp

/-- The logarithms of the least and the greatest double lie within the bounds. -/
def ln (x : Float) : Float :=
  if x.isNaN || x < 0 then nan
  else if x == 0 then negInf
  else if x == posInf then posInf
  else if x == 1 then 0
  else if x == 2 then lnTwo
  else if x < 1 then within (-745) 0 x.log
  else within 0 710 x.log

def cos (x : Float) : Float :=
  if x.isFinite then within (-1) 1 x.cos else nan

/-- The larger of two doubles; a NaN on the right is passed over. -/
def larger (a b : Float) : Float :=
  if a < b then b else a

/-- The greatest of the entries that are not NaN, negative infinity if there is none. -/
def greatest (xs : List Float) : Float :=
  xs.foldl larger negInf

/-- A left-to-right sum. The sum of nothing is negative zero, the unit of addition. -/
def total (xs : List Float) : Float :=
  xs.foldl (· + ·) (-0.0)

/-- The whole part of a double that is not below zero. From `2 ^ 52` on every double is whole. -/
def wholePart (x : Float) : Float :=
  if x < 4503599627370496 then x.toUInt64.toFloat else x

/-- The least whole double at or above a double that is not below zero. -/
def roundUp (x : Float) : Float :=
  let whole := wholePart x
  if whole < x then whole + 1 else whole

/-- The double as a count: the whole part, with zero for NaN and anything below one. -/
def toCount (x : Float) : Nat :=
  x.toUInt64.toNat

/-- Bounds `x` from both sides; NaN stays NaN. -/
def bounded (lo hi x : Float) : Float :=
  if x < lo then lo else if hi < x then hi else x

def ofCount (n : Nat) : Float :=
  n.toUInt64.toFloat

theorem total_append (xs ys : List Float) : total (xs ++ ys) = ys.foldl (· + ·) (total xs) := by
  simp [total]

end Posterior.Numeric
