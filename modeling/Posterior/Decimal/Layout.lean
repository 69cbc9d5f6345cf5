import Posterior.Decimal.Shortest

/-!
How the digits of a double are laid out. Four texts are in use: the plain one of messages, the
descriptive one of records, the one of interchange, and six fixed places in tables.
-/

namespace Posterior.Decimal

structure Layout where
  /-- How the last digit is chosen between two that are equally near. -/
  tie : Tie
  /-- Leading exponents that are written without an exponent; every one if absent. -/
  positional : Option (Int × Int)
  /-- Whole numbers end in `.0`. -/
  wholeMark : Bool
  /-- A positive exponent has its sign. -/
  plusSign : Bool

def Layout.plain : Layout := ⟨.up, none, false, false⟩

def Layout.descriptive : Layout := ⟨.up, some (-4, 15), true, false⟩

def Layout.interchange : Layout := ⟨.even, some (-5, 15), true, true⟩

def zeros (n : Nat) : String := String.ofList (List.replicate n '0')

def Layout.isPositional (l : Layout) (leading : Int) : Bool :=
  match l.positional with
  | none => true
  | some (lo, hi) => lo ≤ leading && leading ≤ hi

def Layout.positionalText (l : Layout) (d : Digits) : String :=
  let digits := Nat.toDigits 10 d.digits
  if 0 ≤ d.exponent then
    String.ofList digits ++ zeros d.exponent.toNat ++ (if l.wholeMark then ".0" else "")
  else
    let places := (-d.exponent).toNat
    if places < digits.length then
      let whole := digits.length - places
      String.ofList (digits.take whole) ++ "." ++ String.ofList (digits.drop whole)
    else "0." ++ zeros (places - digits.length) ++ String.ofList digits

def Layout.scientificText (l : Layout) (d : Digits) : String :=
  let fraction := (Nat.toDigits 10 d.digits).drop 1
  let mark := if 0 ≤ d.leading then (if l.plusSign then "e+" else "e") else "e-"
  String.ofList ((Nat.toDigits 10 d.digits).take 1)
    ++ (if fraction.isEmpty then "" else "." ++ String.ofList fraction)
    ++ mark ++ toString d.leading.natAbs

def signText (x : Float) : String := if x.toBits >>> 63 == 1 then "-" else ""

/-- The text of a finite double. -/
def Layout.finiteText (l : Layout) (x : Float) : String :=
  if x == 0 then signText x ++ (if l.wholeMark then "0.0" else "0")
  else
    let d := shortest l.tie x
    signText x ++ (if l.isPositional d.leading then l.positionalText d else l.scientificText d)

/-- Finite doubles by the layout, the others by name. -/
def named (finite : Float → String) (x : Float) : String :=
  if x.isNaN then "NaN"
  else if x.isFinite then finite x
  else signText x ++ "inf"

/-- The text of a double in messages. -/
def plainText : Float → String := named Layout.plain.finiteText

/-- The text of a double in descriptions of records. -/
def descriptiveText : Float → String := named Layout.descriptive.finiteText

/-- The text of a double in interchange, which has no word for the infinities and NaN. -/
def interchangeText (x : Float) : String :=
  if x.isFinite then Layout.interchange.finiteText x else "null"

/-- The whole number nearest to `num / den`; a half goes to the even neighbour. -/
def roundHalfEven (num den : Nat) : Nat :=
  let down := num / den
  if Tie.even.goesDown down (num % den) den then down else down + 1

/-- The text of a double with a fixed number of places, rounded from its exact value. -/
def fixedText (places : Nat) : Float → String :=
  named fun x =>
    let i := (Binary.ofFloat x).interval
    let unit := Nat.pow 10 places
    let scaled := roundHalfEven (i.value * unit) i.den
    let fraction := toString (scaled % unit)
    signText x ++ toString (scaled / unit) ++ "."
      ++ zeros (places - fraction.length) ++ fraction

end Posterior.Decimal
