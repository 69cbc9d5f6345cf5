import Posterior.Interchange.Parameters
import Posterior.Json.Number
import Posterior.Yaml.Node

/-!
What nodes stand for. A plain scalar is null, a boolean, a number or a string by its text alone; any
other scalar is a string. A tag of the standard can say otherwise. References are followed as the
nodes are read, and only so many of them.
-/

namespace Posterior.Yaml

def isNullText (text : String) : Bool := ["~", "null", "Null", "NULL"].contains text

def bool? (text : String) : Option Bool :=
  if ["true", "True", "TRUE"].contains text then some true
  else if ["false", "False", "FALSE"].contains text then some false
  else none

/-- A whole number without a sign, in one of four bases. It has no needless zeros in front. -/
def wholeNumber? : List Char → Option Nat
  | '0' :: 'x' :: ds => Text.readWhole? 16 ds
  | '0' :: 'o' :: ds => Text.readWhole? 8 ds
  | '0' :: 'b' :: ds => Text.readWhole? 2 ds
  | '0' :: _ :: _ => none
  | ds => Text.readWhole? 10 ds

def withoutPlus : List Char → List Char
  | '+' :: cs => cs
  | cs => cs

def count? (text : String) : Option Nat := wholeNumber? (withoutPlus text.toList)

/-- The number after a minus sign. -/
def below? (text : String) : Option Nat :=
  match text.toList with
  | '-' :: ds => wholeNumber? ds
  | _ => none

def withoutSign (cs : List Char) : List Char :=
  match cs with
  | '+' :: '-' :: _ => cs
  | '+' :: rest => rest
  | '-' :: rest => rest
  | cs => cs

/-- An exponent that makes up the rest of a number, if there is one. -/
def exponent? : List Char → Option (Option (Bool × List Nat))
  | [] => some none
  | c :: cs =>
    if c != 'e' && c != 'E' then none
    else
      let (down, cs) := match cs with
        | '-' :: rest => (true, rest)
        | cs => (false, withoutPlus cs)
      match Text.readDigits cs with
      | ([], _) => none
      | (ds, []) => some (some (down, ds))
      | _ => none

/-- Digits with a point somewhere among them and perhaps an exponent. -/
def decimal? (cs : List Char) : Option Json.Number := do
  let (whole, rest) := Text.readDigits cs
  let (fraction, rest) := match rest with
    | '.' :: rest => Text.readDigits rest
    | rest => ([], rest)
  if whole.isEmpty && fraction.isEmpty then none
  return { negative := false, whole, fraction, exponent := ← exponent? rest }

def hasNeedlessZero (cs : List Char) : Bool :=
  let ds := withoutSign cs
  ds.length > 1 && ds.head? == some '0' && ds.all Char.isDigit

/-- The least magnitude that is rounded past the greatest double. -/
def beyondDoubles : Nat := Nat.pow 2 1024 - Nat.pow 2 970

/-- Whether the magnitude of a decimal is rounded to a double that is finite. What has more than 309
places before the point is not, what has fewer is. -/
def isFinite (n : Json.Number) : Bool :=
  let digits := (n.whole ++ n.fraction).dropWhile (· == 0)
  let exponent : Int := match n.exponent with
    | none => 0
    | some (down, ds) =>
      if down then -(Text.digitsValue 10 ds : Int) else (Text.digitsValue 10 ds : Int)
  let scaling := exponent - n.fraction.length
  let places := digits.length + scaling
  digits.isEmpty || places < 309 ||
    (places = 309 && Text.digitsValue 10 digits * Nat.pow 10 scaling.toNat
      < beyondDoubles * Nat.pow 10 (-scaling).toNat)

/-- Whether a text is a number that need not be whole: infinite, undefined, or a decimal that is
finite among doubles. -/
def isReal (text : String) : Bool :=
  let cs := withoutSign text.toList
  [".inf", ".Inf", ".INF"].contains (String.ofList cs) || [".nan", ".NaN", ".NAN"].contains text ||
    (decimal? cs).any isFinite

/-- Whole numbers must fit a word of 64 bits; longer ones that fit 128 bits are a fault, and beyond
that they are reals like any other. -/
def number? (text : String) : Option (Option Content) :=
  match count? text, below? text with
  | some n, _ =>
    if n < UInt64.size then some (some (.count n))
    else if n < Nat.pow 2 128 then some none
    else none
  | none, some n =>
    if n ≤ Nat.pow 2 63 then some (some (.signed (-n)))
    else if n ≤ Nat.pow 2 127 then some none
    else none
  | none, none => none

/-- What a plain scalar stands for. -/
def plainContent? (text : String) : Option Content :=
  if text.isEmpty || isNullText text then some .null
  else
    match bool? text with
    | some b => some (.bool b)
    | none =>
      match number? text with
      | some content => content
      | none =>
        if !hasNeedlessZero text.toList && isReal text then some .real else some (.str text)

namespace Node

/-- Whether a tag means something only to those who write it. -/
def isLocal (tag : TagBytes) : Bool := (TagBytes.ofChars ['!']).isPrefixOf tag

/-- Whether a node has a local tag that can be read as text; others are passed over. -/
def hasLocalTag (n : Node) : Bool :=
  n.properties.tag.any fun tag => isLocal tag && (String.fromUTF8? ⟨tag.toArray⟩).isSome

def scalarContent? (tag : Option TagBytes) (style : Style) (text : String) : Option Content :=
  match tag with
  | none => if style = .plain then plainContent? text else some (.str text)
  | some tag =>
    if tag == standardTag "bool" then (bool? text).map .bool
    else if tag == standardTag "int" then (number? text).join
    else if tag == standardTag "float" then if isReal text then some .real else none
    else if tag == standardTag "null" then if isNullText text then some .null else none
    else if isLocal tag && style = .plain then plainContent? text
    else some (.str text)

/-- The nodes of a document under their anchors; of two under one number the later counts. -/
abbrev Anchors := List (Nat × Node)

def anchors (root : Node) : Anchors := root.anchored.reverse

mutual

/-- How long a node is as written: scalars and references count once, lists and records twice and
what lies in them besides. -/
def size : Node → Nat
  | scalar _ _ _ => 1
  | reference _ => 1
  | list _ items => 2 + sizeOfItems items
  | record _ rows => 2 + sizeOfRows rows

def sizeOfItems : List Node → Nat
  | [] => 0
  | n :: ns => n.size + sizeOfItems ns

def sizeOfRows : List (Node × Node) → Nat
  | [] => 0
  | (k, v) :: rows => k.size + v.size + sizeOfRows rows

end

end Node

/-- Reads nodes among others under anchors. The state is how many references may still be
followed. -/
abbrev Resolver := ReaderT Node.Anchors (StateT Nat Option)

namespace Node

/-- Reads a whole document, in which so many references may be followed as its size allows. What a
few references to references would blow up is not read to its end. -/
def readWith {α : Type} (decode : Node → Resolver α) (root : Node) : Option α :=
  ((decode root).run root.anchors).run' (100 * root.size)

/-- What a reference stands for, or the node itself. -/
def resolve : Node → Resolver Node
  | reference anchor => do
    match ← get with
    | 0 => failure
    | left + 1 =>
      set left
      return ((← read).lookup anchor).getD empty
  | n => return n

/-- The content of a node that goes no deeper than `depth` lists and records. What has a local tag
has none. -/
def content (depth : Nat) (n : Node) : Resolver Content := do
  let n ← n.resolve
  if n.hasLocalTag then failure
  match n, depth with
  | scalar p style text, _ => scalarContent? p.tag style text
  | list _ items, depth + 1 => return .list (← items.mapM (content depth))
  | record _ rows, depth + 1 =>
    return .record (← rows.mapM fun (k, v) => return (← content depth k, ← content depth v))
  | _, _ => failure

/-- The text of a scalar, however it is written. -/
def text (n : Node) : Resolver String := do
  match ← n.resolve with
  | scalar _ _ text => return text
  | _ => failure

/-- A text that may be absent. -/
def optionalText (n : Node) : Resolver (Option String) := do
  match ← n.resolve with
  | scalar p .plain text =>
    match p.tag with
    | none => return if text.isEmpty || isNullText text then none else some text
    | some tag =>
      if tag != standardTag "null" then return some text
      else if isNullText text then return none
      else failure
  | scalar _ _ text => return some text
  | _ => failure

/-- A count of 64 bits, written as a plain scalar or as a block that is tagged as a number. -/
def count (n : Node) : Resolver Nat := do
  match ← n.resolve with
  | scalar p style text =>
    if style = .plain || (style = .literal && p.tag == some (standardTag "int")) then
      (count? text).filter (· < UInt64.size)
    else failure
  | _ => failure

/-- The rows of a record whose keys are texts. Where nothing is written there is an empty one. -/
def fields (n : Node) : Resolver (List (String × Node)) := do
  match ← n.resolve with
  | record _ rows => rows.mapM fun (k, v) => return (← k.text, v)
  | scalar _ .plain "" => return []
  | _ => failure

end Node

end Posterior.Yaml
