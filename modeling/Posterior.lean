import Posterior.Numeric.LogSpace
import Posterior.Random.Generator
import Posterior.Random.Substream
import Posterior.Store
import Posterior.Address
import Posterior.Decimal.Layout
import Posterior.Value.Text
import Posterior.Failure
import Posterior.Distribution.Elementary
import Posterior.Distribution.Empirical
import Posterior.Handler.Forward
import Posterior.Trace.Description
import Posterior.Chain.Basic
import Posterior.MetropolisHastings
import Posterior.ParticleFilter
import Posterior.Rejuvenation.Filter
import Posterior.AsyncSmc
import Posterior.Json.Number
import Posterior.Json.Reader
import Posterior.Json.Writer
import Posterior.Runner
import Posterior.Interchange.Parameters
import Posterior.Interchange.Reading
import Posterior.Interchange.ConfigFile
import Posterior.Proofs.MetropolisCoherence
import Posterior.Proofs.RejuvenationCoherence
import Posterior.Proofs.SiteSelection
import Posterior.Proofs.DoubleOrder
import Posterior.Proofs.Resampling
import Posterior.Proofs.Survivors
import Posterior.Proofs.Turns
import Posterior.Proofs.Conservation
import Posterior.Proofs.Resumption
import Posterior.Proofs.IdleRejuvenation
import Posterior.Proofs.ChainEquivalence
import Posterior.Proofs.FilterRuns
import Posterior.Proofs.Lockstep
import Posterior.Proofs.FinalWeights
import Posterior.Proofs.Restoration
import Posterior.Proofs.NotANumber
import Posterior.Proofs.InternalFailures
import Posterior.Proofs.ExactSums
import Posterior.Proofs.ForwardRepetition
import Posterior.Proofs.SampleAccounts
import Posterior.Proofs.DeclinedSteps
import Posterior.Proofs.Reuse
import Posterior.Proofs.RejuvenationTermination
import Posterior.Proofs.Summaries
import Posterior.Proofs.FactorCounts
import Posterior.Proofs.Segments
import Posterior.Proofs.RunningMeans
import Posterior.Proofs.Duplicates
import Posterior.Proofs.Grouping
import Posterior.Proofs.Faithfulness
import Posterior.Proofs.ScoredDraws
import Posterior.Proofs.Installations
import Posterior.Proofs.ImpossibleEntries
