import Posterior.Address
import Posterior.Decimal.Layout
import Posterior.Handler.Id
import Posterior.Report

/-!
Failures by their causes. What a caller reads of one, its family, code, message, facts and hint, is
said in one place, `Failure.report`.
-/

namespace Posterior

/-- Why a distribution turns its parameters down. -/
inductive ParameterFault where
  | notNumeric
  | notList
  | badWeight
  | zeroTotal
  | noItems
  | badDeviation
  deriving DecidableEq

def ParameterFault.message : ParameterFault → String
  | notNumeric => "expected a numeric parameter"
  | notList => "expected a list parameter"
  | badWeight => "weights must be finite and non-negative"
  | zeroTotal => "weights sum to zero"
  | noItems => "no items to draw from"
  | badDeviation => "std must be positive"

/-- Why a file cannot be read or written. -/
inductive FileFault where
  | missing
  | isDirectory
  /-- What the file holds is not encoded text. -/
  | notText
  deriving DecidableEq

def FileFault.message : FileFault → String
  | missing => "No such file or directory (os error 2)"
  | isDirectory => "Is a directory (os error 21)"
  | notText => "stream did not contain valid UTF-8"

inductive Failure where
  /-- A quantity that must be a number is NaN. -/
  | notANumber (code quantity : String)
  | factorNaN (handler : String) (address : Address)
  | weightNaN (particle : Nat)
  | acceptanceNaN (current previous forward backward : Float)
  | emptyHistogram (buckets : Nat) (total : Float)
  /-- Another handler is on top of the stack than the one that was meant. -/
  | handlerNesting (expected active : HandlerId) (activeName : String) (handler : Option String)
  | handlerMissing (expected : HandlerId) (handler : Option String)
  | factorOutsideInference (address : Address)
  | noActiveParticle
  | allWeightsImpossible (algorithm : String) (barrier particles : Nat)
  | badParameters (distribution : String) (fault : ParameterFault) (arity : Nat)
  | emptySupport
  | duplicateAddress (address : Address) (position : Nat)
  /-- A proposal has picked an entry that the trace does not have. -/
  | regenOutOfRange (index length : Nat)
  | missingReturnValue (iteration : Nat)
  | zeroCount (field : String) (algorithm : Option String)
  | unreadableConfig
  | unreadableFile (fault : FileFault)
  /-- A failure of the configuration in the file at `path`. -/
  | inFile (path : String) (cause : Failure)
  deriving Inhabited

namespace Failure

def handlerFact : Option String → List (String × String)
  | none => []
  | some name => [("handler", name)]

def algorithmFact : Option String → List (String × String)
  | none => []
  | some name => [("algorithm", name)]

def report : Failure → Report
  | notANumber code quantity =>
    ⟨.numeric, .of code (quantity ++ " is NaN") [("quantity", quantity)]⟩
  | factorNaN handler address =>
    ⟨.numeric, .of "factor-nan" "factor received a NaN log weight"
      [("handler", handler), ("address", address.text)]⟩
  | weightNaN particle =>
    ⟨.numeric, .of "weight-nan" "particle weight is NaN" [("particle", toString particle)]⟩
  | acceptanceNaN current previous forward backward =>
    ⟨.numeric, .of "acceptance-nan" "acceptance probability is NaN"
      [("curr_score", Decimal.plainText current), ("old_score", Decimal.plainText previous),
        ("fwd_lp", Decimal.plainText forward), ("bwd_lp", Decimal.plainText backward)]⟩
  | emptyHistogram buckets total =>
    ⟨.numeric, .of "empty-histogram" "cannot normalize histogram"
      [("buckets", toString buckets), ("total", Decimal.plainText total)]⟩
  | handlerNesting expected active activeName handler =>
    ⟨.handler, .of "handler-nesting" "effect reached a handler that is not active"
      ([("expected", toString expected.number), ("active", toString active.number),
        ("active_name", activeName)] ++ handlerFact handler)⟩
  | handlerMissing expected handler =>
    ⟨.handler, .of "handler-missing" "no handler is installed"
      ([("expected", toString expected.number)] ++ handlerFact handler)⟩
  | factorOutsideInference address =>
    ⟨.handler, (Detail.of "factor-outside-inference" "factor allowed only inside inference"
      [("address", address.text)]).withHint "run the program under an inference engine"⟩
  | noActiveParticle =>
    ⟨.handler, .of "no-active-particle" "effect arrived with no particle running"
      [("algorithm", "async-smc")]⟩
  | allWeightsImpossible algorithm barrier particles =>
    ⟨.resampling, (Detail.of "all-weights-impossible" "every particle has weight -inf"
      [("algorithm", algorithm), ("barrier", toString barrier),
        ("particles", toString particles)]).withHint
        "use lenient mode to continue with a degenerate population"⟩
  | badParameters distribution fault arity =>
    ⟨.distribution, .of "bad-params" fault.message
      [("distribution", distribution), ("arity", toString arity)]⟩
  | emptySupport =>
    ⟨.distribution, .of "empty-support" "empirical distribution has no support" []⟩
  | duplicateAddress address position =>
    ⟨.trace, (Detail.of "duplicate-address" "choice site visited twice in one execution"
      [("address", address.text), ("position", toString position)]).withHint
        "addresses must be unique per syntactic choice site"⟩
  | regenOutOfRange index length =>
    ⟨.trace, .of "regen-out-of-range" "regeneration index outside the trace"
      [("index", toString index), ("len", toString length)]⟩
  | missingReturnValue iteration =>
    ⟨.trace, .of "missing-return-value" "chain state has no return value"
      [("algorithm", "mh"), ("iteration", toString iteration)]⟩
  | zeroCount field algorithm =>
    ⟨.config, .of "zero-count" "count must be positive"
      ([("field", field)] ++ algorithmFact algorithm)⟩
  | unreadableConfig =>
    ⟨.config, (Detail.of "yaml-parse" "the configuration cannot be read" []).withHint
      "see InferenceConfig for the accepted keys"⟩
  | unreadableFile fault => ⟨.config, .of "config-io" fault.message []⟩
  | inFile path cause => ⟨.config, cause.report.detail.withFact "path" path⟩

def code (f : Failure) : String := f.report.detail.code

def family (f : Failure) : Family := f.report.family

end Failure

end Posterior
