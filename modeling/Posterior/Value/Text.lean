import Posterior.Value.Basic
import Posterior.Decimal.Layout
import Posterior.Text.Quoted

/-!
Two texts of a value: the plain one, as a reader would write it down, and the descriptive one,
which names the shape at every level.
-/

namespace Posterior.Value

def boolText (b : Bool) : String := if b then "true" else "false"

mutual

def text : Value → String
  | .unit => "()"
  | .bool b => boolText b
  | .int i => toString i.toInt
  | .real x => Decimal.plainText x
  | .str s => Text.quoted s
  | .list items => "[" ++ Text.commaSeparated (itemTexts items) ++ "]"

def itemTexts : List Value → List String
  | [] => []
  | x :: xs => text x :: itemTexts xs

end

mutual

def description : Value → String
  | .unit => "Unit"
  | .bool b => "Bool(" ++ boolText b ++ ")"
  | .int i => "Int(" ++ toString i.toInt ++ ")"
  | .real x => "Real(" ++ Decimal.descriptiveText x ++ ")"
  | .str s => "Str(" ++ Text.quoted s ++ ")"
  | .list items => "List([" ++ Text.commaSeparated (itemDescriptions items) ++ "])"

def itemDescriptions : List Value → List String
  | [] => []
  | x :: xs => description x :: itemDescriptions xs

end

/-- A label for a site: a string as it is, any other value by its plain text. -/
def label : Value → String
  | .str s => s
  | v => v.text

end Posterior.Value
