import Posterior.Distribution.Empirical
import Posterior.Metrics

/-! What an engine hands back: the marginal over return values, and its counters. -/

namespace Posterior

structure Inference where
  distribution : Empirical
  metrics : Metrics
  deriving Inhabited

end Posterior
