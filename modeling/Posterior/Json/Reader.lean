import Posterior.Json.Basic
import Posterior.Text.Digits

/-!
Reading documents. Each reader takes what it reads off the front of the text and hands back the
rest.
-/

namespace Posterior.Json

open Text

abbrev Reader (α : Type) := List Char → Option (α × List Char)

def isSpace (c : Char) : Bool := c = ' ' || c = '\n' || c = '\t' || c = '\r'

def skipSpace (cs : List Char) : List Char := cs.dropWhile isSpace

/-- Zero, or digits that do not start with one. -/
def readWhole : Reader (List Nat)
  | '0' :: c :: cs => if c.isDigit then none else some ([0], c :: cs)
  | cs =>
    match readDigits cs with
    | ([], _) => none
    | (ds, rest) => some (ds, rest)

def readFraction : Reader (List Nat)
  | '.' :: cs =>
    match readDigits cs with
    | ([], _) => none
    | (ds, rest) => some (ds, rest)
  | cs => some ([], cs)

def readSign : List Char → Bool × List Char
  | '+' :: cs => (false, cs)
  | '-' :: cs => (true, cs)
  | cs => (false, cs)

def readExponent : Reader (Option (Bool × List Nat))
  | c :: cs =>
    if c = 'e' || c = 'E' then
      let (down, cs) := readSign cs
      match readDigits cs with
      | ([], _) => none
      | (ds, rest) => some (some (down, ds), rest)
    else some (none, c :: cs)
  | [] => some (none, [])

def readMagnitude (negative : Bool) : Reader Number := fun cs => do
  let (whole, cs) ← readWhole cs
  let (fraction, cs) ← readFraction cs
  let (exponent, cs) ← readExponent cs
  return ({ negative, whole, fraction, exponent }, cs)

def readNumber : Reader Number
  | '-' :: cs => readMagnitude true cs
  | cs => readMagnitude false cs

def readHex4 : Reader Nat
  | a :: b :: c :: d :: cs => do
    let a ← hexDigit? a
    let b ← hexDigit? b
    let c ← hexDigit? c
    let d ← hexDigit? d
    return (a * 4096 + b * 256 + c * 16 + d, cs)
  | _ => none

def escaped? : Char → Option Char
  | '"' => some '"'
  | '\\' => some '\\'
  | '/' => some '/'
  | 'b' => some '\x08'
  | 'f' => some '\x0c'
  | 'n' => some '\n'
  | 'r' => some '\r'
  | 't' => some '\t'
  | _ => none

/-- A piece of a string: a character, or a unit of sixteen bits spelled by its number. -/
inductive Unit16 where
  | char (c : Char)
  | unit (n : Nat)

/-- The pieces of a string up to its closing quote. -/
def readUnits : Nat → Reader (List Unit16)
  | 0, _ => none
  | _, [] => none
  | fuel + 1, c :: cs =>
    if c = '"' then some ([], cs)
    else if c = '\\' then
      match cs with
      | 'u' :: cs => do
        let (n, cs) ← readHex4 cs
        let (rest, cs) ← readUnits fuel cs
        return (.unit n :: rest, cs)
      | e :: cs => do
        let c ← escaped? e
        let (rest, cs) ← readUnits fuel cs
        return (.char c :: rest, cs)
      | [] => none
    else if c.toNat < 0x20 then none
    else do
      let (rest, cs) ← readUnits fuel cs
      return (.char c :: rest, cs)

def isHigh (n : Nat) : Bool := 0xD800 ≤ n && n < 0xDC00

def isLow (n : Nat) : Bool := 0xDC00 ≤ n && n < 0xE000

/-- Puts surrogate pairs together; half of a pair by itself spells nothing. -/
def joinUnits : List Unit16 → Option (List Char)
  | [] => some []
  | .char c :: rest => (joinUnits rest).map (c :: ·)
  | .unit n :: rest =>
    if isLow n then none
    else if isHigh n then
      match rest with
      | .unit m :: rest =>
        if isLow m then
          (joinUnits rest).map (Char.ofNat (0x10000 + (n - 0xD800) * 1024 + (m - 0xDC00)) :: ·)
        else none
      | _ => none
    else (joinUnits rest).map (Char.ofNat n :: ·)

/-- A string after its opening quote. -/
def readString : Reader (Option String) := fun cs => do
  let (units, rest) ← readUnits (cs.length + 1) cs
  return ((joinUnits units).map String.ofList, rest)

def expect (word : List Char) (cs : List Char) : Option (List Char) :=
  if word.isPrefixOf cs then some (cs.drop word.length) else none

mutual

def readDocument : Nat → Reader Json
  | 0, _ => none
  | fuel + 1, cs =>
    match skipSpace cs with
    | '"' :: cs => (readString cs).map fun (s, rest) => (.str s, rest)
    | '[' :: cs =>
      match skipSpace cs with
      | ']' :: cs => some (.list [], cs)
      | cs => (readItems fuel cs).map fun (items, rest) => (.list items, rest)
    | '\x7b' :: cs =>
      match skipSpace cs with
      | '\x7d' :: cs => some (.record [], cs)
      | cs => (readFields fuel cs).map fun (fields, rest) => (.record fields, rest)
    | 'n' :: cs => (expect "ull".toList cs).map fun rest => (.null, rest)
    | 't' :: cs => (expect "rue".toList cs).map fun rest => (.bool true, rest)
    | 'f' :: cs => (expect "alse".toList cs).map fun rest => (.bool false, rest)
    | cs => (readNumber cs).map fun (n, rest) => (.number n, rest)

/-- The items of a list and its closing bracket. -/
def readItems : Nat → Reader (List Json)
  | 0, _ => none
  | fuel + 1, cs => do
    let (item, cs) ← readDocument fuel cs
    match skipSpace cs with
    | ',' :: cs =>
      let (rest, cs) ← readItems fuel cs
      return (item :: rest, cs)
    | ']' :: cs => return ([item], cs)
    | _ => none

/-- The fields of a record and its closing brace. -/
def readFields : Nat → Reader (List (Option String × Json))
  | 0, _ => none
  | fuel + 1, cs => do
    let (key, cs) ←
      match skipSpace cs with
      | '"' :: cs => readString cs
      | _ => none
    let (value, cs) ←
      match skipSpace cs with
      | ':' :: cs => readDocument fuel cs
      | _ => none
    match skipSpace cs with
    | ',' :: cs =>
      let (rest, cs) ← readFields fuel cs
      return ((key, value) :: rest, cs)
    | '\x7d' :: cs => return ([(key, value)], cs)
    | _ => none

end

/-- Reads a text that is one document. -/
def ofText? (text : String) : Option Json := do
  let cs := text.toList
  let (document, rest) ← readDocument (2 * cs.length + 2) cs
  if (skipSpace rest).isEmpty then return document else none

end Posterior.Json
