import Posterior.Trace.Basic
import Posterior.Value.Text

/-! The description of an entry in diagnostics. -/

namespace Posterior.Entry

def field (name text : String) : String := name ++ ": " ++ text

def description (e : Entry) : String :=
  "TraceEntry \x7b " ++ Text.commaSeparated [
    field "address" ("Address(" ++ Text.quoted e.address.path ++ ")"),
    field "dist" (Text.quoted e.choice.dist.name),
    field "score_before" (Decimal.descriptiveText e.scoreBefore),
    field "choice_score" (Decimal.descriptiveText e.choiceScore),
    field "value" e.value.description,
    field "reused" (Value.boolText e.reused),
    field "factors_before" (toString e.factorsBefore),
    ".. \x7d"]

end Posterior.Entry
