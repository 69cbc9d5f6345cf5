import Posterior.Table
import Posterior.Value.Basic

/-!
Stores: the named slots that a program reads and writes, kept in the order of their names.
-/

namespace Posterior

abbrev Store := Table String Value

namespace Store

/-- Two stores are the same when they have the same names, bound to the same values. -/
def same (s t : Store) : Bool :=
  s.rows.map (·.1) == t.rows.map (·.1) && Value.sameItems (s.rows.map (·.2)) (t.rows.map (·.2))

end Store

end Posterior
