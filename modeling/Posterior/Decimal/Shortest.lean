/-!
The shortest decimal that reads back to a double. A positive double is `mantissa * 2 ^ exponent`;
the reals that round to it form an interval, closed when the mantissa is even. Of the decimals in
the interval the one with the fewest digits is taken, and of those the nearest; a rule says which of
two equally near ones that is.
-/

namespace Posterior.Decimal

structure Binary where
  mantissa : Nat
  exponent : Int
  /-- Below a power of two the next double is only half as far away. -/
  narrow : Bool

/-- The bit above the fraction, which a normal double leaves out. -/
def leadingBit : Nat := Nat.pow 2 52

/-- The magnitude of a double that is finite and not zero. -/
def Binary.ofFloat (x : Float) : Binary :=
  let bits := x.toBits.toNat
  let fraction : Nat := bits % leadingBit
  let biased : Nat := bits / leadingBit % 0x800
  if biased = 0 then ⟨fraction, -1074, false⟩
  else ⟨fraction + leadingBit, (biased : Int) - 1075, fraction = 0 && 1 < biased⟩

/-- A positive rational with one denominator for the value and the ends of its interval. -/
structure Interval where
  low : Nat
  value : Nat
  high : Nat
  den : Nat
  closed : Bool

def Binary.interval (b : Binary) : Interval :=
  let up := Nat.pow 2 (b.exponent - 2).toNat
  { low := (4 * b.mantissa - (if b.narrow then 1 else 2)) * up
    value := 4 * b.mantissa * up
    high := (4 * b.mantissa + 2) * up
    den := Nat.pow 2 (2 - b.exponent).toNat
    closed := b.mantissa % 2 = 0 }

/-- Whether `digits * 10 ^ exponent` lies in the interval. -/
def Interval.holds (i : Interval) (digits : Nat) (exponent : Int) : Bool :=
  let point := digits * Nat.pow 10 exponent.toNat * i.den
  let unit := Nat.pow 10 (-exponent).toNat
  if i.closed then i.low * unit ≤ point && point ≤ i.high * unit
  else i.low * unit < point && point < i.high * unit

def digitCount (n : Nat) : Nat := (Nat.toDigits 10 n).length

/-- How many places after the point come before the first digit that is not zero. -/
def leadingZeros (num den : Nat) : Nat → Nat
  | 0 => 0
  | fuel + 1 => if den ≤ num * 10 then 0 else leadingZeros (num * 10) den fuel + 1

/-- The `k` with `10 ^ (k - 1) ≤ value < 10 ^ k`. -/
def Interval.magnitude (i : Interval) : Int :=
  if i.den ≤ i.value then digitCount (i.value / i.den)
  else -(leadingZeros i.value i.den 400 : Int)

/-- The digits of a decimal and the power of ten that they are multiplied by. -/
structure Digits where
  digits : Nat
  exponent : Int
  deriving DecidableEq

/-- Where a value goes that lies halfway between its two neighbours. -/
inductive Tie where
  | up
  | even
  deriving DecidableEq

/-- Whether `n + rest / den` goes down to `n`. -/
def Tie.goesDown (t : Tie) (n rest den : Nat) : Bool :=
  2 * rest < den || (2 * rest = den && t = .even && n % 2 = 0)

/-- The nearer of the two grid points beside the value, if one of them lies in the interval. -/
def Interval.onGrid? (i : Interval) (tie : Tie) (exponent : Int) : Option Digits :=
  let num := i.value * Nat.pow 10 (-exponent).toNat
  let den := i.den * Nat.pow 10 exponent.toNat
  let below := num / den
  let downFirst := tie.goesDown below (num % den) den
  let near := if downFirst then below else below + 1
  let far := if downFirst then below + 1 else below
  if i.holds near exponent then some ⟨near, exponent⟩
  else if i.holds far exponent then some ⟨far, exponent⟩
  else none

def Interval.shortestFrom (i : Interval) (tie : Tie) (exponent : Int) : Nat → Digits
  | 0 =>
    ⟨i.value * Nat.pow 10 (-exponent).toNat / (i.den * Nat.pow 10 exponent.toNat), exponent⟩
  | fuel + 1 =>
    match i.onGrid? tie exponent with
    | some d => d
    | none => i.shortestFrom tie (exponent - 1) fuel

/-- The shortest digits of a double that is finite and not zero; its sign is passed over. The first
grid is that of the next power of ten, whose only candidate is the power itself. -/
def shortest (tie : Tie) (x : Float) : Digits :=
  let i := (Binary.ofFloat x).interval
  i.shortestFrom tie i.magnitude 18

/-- The exponent of the first digit, as in scientific writing. -/
def Digits.leading (d : Digits) : Int := d.exponent + digitCount d.digits - 1

end Posterior.Decimal
