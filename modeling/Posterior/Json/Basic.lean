/-!
Documents of the interchange format. A document that is read keeps its numbers and strings as they
were written, because what counts as a valid number or string depends on where it stands.
-/

namespace Posterior

namespace Json

/-- A number as written: its sign and the digits of its parts. -/
structure Number where
  negative : Bool
  whole : List Nat
  fraction : List Nat
  /-- Whether the exponent is negative, and its digits. -/
  exponent : Option (Bool × List Nat)
  deriving Inhabited

end Json

/-- A document as read. A string is absent if it spells half of a surrogate pair. -/
inductive Json where
  | null
  | bool (b : Bool)
  | number (n : Json.Number)
  | str (s : Option String)
  | list (items : List Json)
  | record (fields : List (Option String × Json))
  deriving Inhabited

end Posterior
