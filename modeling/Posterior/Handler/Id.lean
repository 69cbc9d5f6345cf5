/-! Identifiers of installed handlers, numbered in the order of installation. -/

namespace Posterior

structure HandlerId where
  number : Nat
  deriving DecidableEq, Inhabited

end Posterior
