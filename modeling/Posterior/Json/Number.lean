import Posterior.Json.Basic
import Posterior.Numeric.Elementary
import Posterior.Text.Digits

/-!
What a written number stands for. Whole numbers of 64 bits are exact. Any other number is a
significand of at most 64 bits, later digits being dropped, that is multiplied or divided by a power
of ten; it must not pass the greatest double.
-/

namespace Posterior.Json.Number

def maxWord : Nat := UInt64.size - 1

/-- The magnitude of the least whole number of 64 bits with a sign. -/
def signBit : Nat := Nat.pow 2 63

/-- Appends digits to a significand until it would pass 64 bits; also the digits left over. -/
def gather : Nat → List Nat → Nat × List Nat
  | significand, [] => (significand, [])
  | significand, d :: ds =>
    if maxWord < significand * 10 + d then (significand, d :: ds)
    else gather (significand * 10 + d) ds

/-- The double nearest to `10 ^ n`. -/
def powerOfTen (n : Nat) : Float := Float.ofScientific 1 false n

/-- `x * 10 ^ exponent`, absent past the greatest double. Exponents below those of doubles are taken
off in portions; three of them leave nothing of a significand. -/
def scale (x : Float) (exponent : Int) : Nat → Option Float
  | 0 => some 0
  | portions + 1 =>
    if exponent.natAbs ≤ 308 then
      if 0 ≤ exponent then
        let y := x * powerOfTen exponent.natAbs
        if y.isInf then none else some y
      else some (x / powerOfTen exponent.natAbs)
    else if x == 0 then some x
    else if 0 ≤ exponent then none
    else scale (x / powerOfTen 308) (exponent + 308) portions

/-- The significand of a number and the power of ten from its digits alone. -/
def significand (n : Number) : Nat × Int :=
  let (s, excess) := gather 0 n.whole
  let (s, rest) := gather s n.fraction
  (s, (excess.length : Int) - ((n.fraction.length : Int) - rest.length))

/-- The greatest exponent that is taken for what it is. -/
def maxExponent : Nat := Nat.pow 2 31 - 1

/-- Exponents above the greatest decide by themselves: zero, or past every double. -/
def magnitude? (n : Number) : Option Float :=
  let (s, scaling) := n.significand
  let x := s.toUInt64.toFloat
  match n.exponent with
  | none => scale x scaling 4
  | some (down, digits) =>
    let e := Text.digitsValue 10 digits
    if maxExponent < e then (if s ≠ 0 && !down then none else some 0)
    else if down then scale x (scaling - e) 4
    else scale x (scaling + e) 4

inductive Kind where
  | count (n : Nat)
  | below (i : Int)
  | real (x : Float)

def isWhole (n : Number) : Bool := n.fraction.isEmpty && n.exponent.isNone

def signed (n : Number) (x : Float) : Float := if n.negative then -x else x

/-- A negative zero and whole numbers of more than 64 bits are reals. -/
def kind? (n : Number) : Option Kind :=
  let value := Text.digitsValue 10 n.whole
  if n.isWhole && value ≤ maxWord then
    if !n.negative then some (.count value)
    else if value = 0 || signBit < value then some (.real (-value.toUInt64.toFloat))
    else some (.below (-value))
  else n.magnitude?.map fun x => .real (n.signed x)

def toReal? (n : Number) : Option Float :=
  n.kind?.map fun
    | .count k => k.toUInt64.toFloat
    | .below i => Float.ofInt i
    | .real x => x

def toCount? (n : Number) : Option Nat :=
  match n.kind? with
  | some (.count k) => some k
  | _ => none

def toInt? (n : Number) : Option Int64 :=
  match n.kind? with
  | some (.count k) => if k < signBit then some (Int64.ofNat k) else none
  | some (.below i) => some (Int64.ofInt i)
  | _ => none

end Posterior.Json.Number
