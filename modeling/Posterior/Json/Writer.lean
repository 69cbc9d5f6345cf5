import Posterior.Decimal.Layout

/-!
Writing documents, on one line or indented. Strings escape their quotes, backslashes and controls
and nothing else.
-/

namespace Posterior.Json

/-- A document to be written. -/
inductive Document where
  | null
  | bool (b : Bool)
  | int (i : Int)
  | real (x : Float)
  | str (s : String)
  | list (items : List Document)
  | record (fields : List (String × Document))
  deriving Inhabited

namespace Document

def count (n : Nat) : Document := .int n

def ofOption {α : Type} (f : α → Document) : Option α → Document
  | none => .null
  | some a => f a

def hexPair (n : Nat) : List Char :=
  match Nat.toDigits 16 n with
  | [d] => ['0', d]
  | ds => ds

def stringChar (c : Char) : List Char :=
  if c = '"' then ['\\', '"']
  else if c = '\\' then ['\\', '\\']
  else if c = '\x08' then ['\\', 'b']
  else if c = '\x0c' then ['\\', 'f']
  else if c = '\n' then ['\\', 'n']
  else if c = '\r' then ['\\', 'r']
  else if c = '\t' then ['\\', 't']
  else if c.toNat < 0x20 then ['\\', 'u', '0', '0'] ++ hexPair c.toNat
  else [c]

def stringText (s : String) : String :=
  "\"" ++ String.ofList (s.toList.flatMap stringChar) ++ "\""

def wordText (b : Bool) : String := if b then "true" else "false"

mutual

def text : Document → String
  | .null => "null"
  | .bool b => wordText b
  | .int i => toString i
  | .real x => Decimal.interchangeText x
  | .str s => stringText s
  | .list items => "[" ++ ",".intercalate (itemTexts items) ++ "]"
  | .record fields => "\x7b" ++ ",".intercalate (fieldTexts fields) ++ "\x7d"

def itemTexts : List Document → List String
  | [] => []
  | d :: ds => text d :: itemTexts ds

def fieldTexts : List (String × Document) → List String
  | [] => []
  | (key, d) :: fields => (stringText key ++ ":" ++ text d) :: fieldTexts fields

end

def newLine (depth : Nat) : String := "\n" ++ String.ofList (List.replicate (2 * depth) ' ')

/-- Lines between two brackets, one level deeper than they. -/
def block (opening closing : String) (depth : Nat) (lines : List String) : String :=
  if lines.isEmpty then opening ++ closing
  else opening ++ newLine (depth + 1) ++ ("," ++ newLine (depth + 1)).intercalate lines
    ++ newLine depth ++ closing

mutual

/-- The document with a line for each item and field, indented by two spaces to a level. -/
def indented (depth : Nat) : Document → String
  | .list items => block "[" "]" depth (indentedItems (depth + 1) items)
  | .record fields => block "\x7b" "\x7d" depth (indentedFields (depth + 1) fields)
  | d => text d

def indentedItems (depth : Nat) : List Document → List String
  | [] => []
  | d :: ds => indented depth d :: indentedItems depth ds

def indentedFields (depth : Nat) : List (String × Document) → List String
  | [] => []
  | (key, d) :: fields => (stringText key ++ ": " ++ indented depth d) :: indentedFields depth fields

end

end Document

end Posterior.Json
