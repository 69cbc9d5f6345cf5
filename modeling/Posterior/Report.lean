import Posterior.Table

/-!
Reports: the form in which a failure reaches a caller. A report belongs to a family and holds a
stable code, a message, named facts in the order of their names, and sometimes a hint.
-/

namespace Posterior

inductive Family where
  | numeric
  | handler
  | resampling
  | distribution
  | trace
  | config
  deriving DecidableEq, Inhabited

namespace Family

def all : List Family := [numeric, handler, resampling, distribution, trace, config]

def name : Family → String
  | numeric => "Numeric"
  | handler => "Handler"
  | resampling => "Resampling"
  | distribution => "Distribution"
  | trace => "Trace"
  | config => "Config"

def ofName? (name : String) : Option Family := all.find? (·.name == name)

/-- What a message of the family opens with. -/
def opening : Family → String
  | numeric => "numeric error: "
  | handler => "handler error: "
  | resampling => "resampling error: "
  | distribution => "distribution error: "
  | trace => "trace error: "
  | config => "config error: "

theorem ofName?_name (f : Family) : ofName? f.name = some f := by
  cases f <;> decide

end Family

structure Detail where
  code : String
  message : String
  context : Table String String := .empty
  hint : Option String := none
  deriving Inhabited

namespace Detail

def withFact (d : Detail) (name fact : String) : Detail :=
  { d with context := d.context.insert name fact }

def withFacts (d : Detail) (facts : List (String × String)) : Detail :=
  facts.foldl (fun d fact => d.withFact fact.1 fact.2) d

/-- A detail with the given facts and no hint. -/
def of (code message : String) (facts : List (String × String)) : Detail :=
  withFacts { code := code, message := message } facts

def withHint (d : Detail) (hint : String) : Detail := { d with hint := some hint }

def contextText (context : Table String String) : String :=
  if context.isEmpty then ""
  else " | context: [" ++ ", ".intercalate (context.rows.map fun r => r.1 ++ "=" ++ r.2) ++ "]"

def hintText : Option String → String
  | none => ""
  | some hint => " | hint: " ++ hint

def text (d : Detail) : String :=
  d.message ++ " (code: " ++ d.code ++ ")" ++ contextText d.context ++ hintText d.hint

end Detail

structure Report where
  family : Family
  detail : Detail
  deriving Inhabited

namespace Report

def text (r : Report) : String := r.family.opening ++ r.detail.text

def same (r s : Report) : Bool :=
  r.family == s.family && r.detail.code == s.detail.code && r.detail.message == s.detail.message
    && r.detail.context.rows == s.detail.context.rows && r.detail.hint == s.detail.hint

end Report

end Posterior
