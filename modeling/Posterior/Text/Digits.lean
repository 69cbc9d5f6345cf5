/-! Digits and the numbers that they spell. -/

namespace Posterior.Text

def digit? (c : Char) : Option Nat := if c.isDigit then some (c.toNat - '0'.toNat) else none

def hexDigit? (c : Char) : Option Nat :=
  if c.isDigit then some (c.toNat - '0'.toNat)
  else if 'a' ≤ c && c ≤ 'f' then some (c.toNat - 'a'.toNat + 10)
  else if 'A' ≤ c && c ≤ 'F' then some (c.toNat - 'A'.toNat + 10)
  else none

/-- The digits in front of a text, and the rest of it. -/
def readDigits : List Char → List Nat × List Char
  | [] => ([], [])
  | c :: cs =>
    match digit? c with
    | some d =>
      let (ds, rest) := readDigits cs
      (d :: ds, rest)
    | none => ([], c :: cs)

/-- The number that digits of a base spell, the first one counting most. -/
def digitsValue (base : Nat) (ds : List Nat) : Nat := ds.foldl (fun n d => n * base + d) 0

/-- The number that a text of nothing but digits spells. -/
def readWhole? (base : Nat) (cs : List Char) : Option Nat := do
  let ds ← cs.mapM hexDigit?
  if !ds.isEmpty && ds.all (· < base) then some (digitsValue base ds) else none

end Posterior.Text
