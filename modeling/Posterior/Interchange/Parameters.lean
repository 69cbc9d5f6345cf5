import Posterior.Config
import Posterior.Interchange.Writing

/-!
The parameters of the engines, read from content whose format no longer matters. Content is read
before it is known which engine it is for. A parameter that is missing has its default. Of named
parameters one that the engine does not have is passed over, and one given twice is a fault; a list
of parameters may not be too long.
-/

namespace Posterior

/-- A document whose scalars are understood. -/
inductive Content where
  | null
  | bool (b : Bool)
  | count (n : Nat)
  /-- A whole number with a sign of its own. -/
  | signed (i : Int)
  /-- Any other number. -/
  | real
  | str (s : String)
  | list (items : List Content)
  | record (rows : List (Content × Content))
  deriving Inhabited

/-- The parameters of an engine as they are given: by their names, or in order. -/
inductive Parameters where
  | named (rows : List (Content × Content))
  | listed (items : List Content)

namespace Content

def toCount? : Content → Option Nat
  | count n => some n
  | signed i => if 0 ≤ i then some i.toNat else none
  | _ => none

def toBool? : Content → Option Bool
  | bool b => some b
  | _ => none

/-- Whether something can be named so: by a string, or by a count from zero. -/
def isName : Content → Bool
  | str _ => true
  | count _ => true
  | _ => false

/-- Whether this names the thing at the given place. -/
def names (place : Nat) (name : String) : Content → Bool
  | str s => s == name
  | count n => n == place
  | _ => false

def isEmpty : Content → Bool
  | null => true
  | record rows => rows.isEmpty
  | _ => false

/-- One of several names: a string, or a record with the name as its only key and nothing under
it. -/
def toName? (choices : List String) : Content → Option Nat
  | str s => choices.findIdx? (· == s)
  | record [(key, value)] =>
    if value.isEmpty then
      (choices.zipIdx.find? fun choice => key.names choice.2 choice.1).map (·.2)
    else none
  | _ => none

end Content

namespace Parameters

/-- The parameter at a place, with its default if it is missing. -/
def read? {α : Type} (place : Nat) (name : String) (decode : Content → Option α) (default : α) :
    Parameters → Option α
  | named rows =>
    match rows.filter fun row => row.1.names place name with
    | [] => some default
    | [row] => decode row.2
    | _ => none
  | listed items =>
    match items[place]? with
    | none => some default
    | some item => decode item

/-- Whether these can be the parameters of an engine that has so many. -/
def fit (arity : Nat) : Parameters → Bool
  | named rows => rows.all (·.1.isName)
  | listed items => items.length ≤ arity

def mh? (ps : Parameters) : Option MetropolisConfig := do
  guard (ps.fit 1)
  let d : MetropolisConfig := {}
  return { iterations := ← ps.read? 0 "iterations" Content.toCount? d.iterations }

def filter? (ps : Parameters) : Option FilterConfig := do
  guard (ps.fit 2)
  let d : FilterConfig := {}
  return {
    particles := ← ps.read? 0 "particles" Content.toCount? d.particles
    strict := ← ps.read? 1 "strict" Content.toBool? d.strict }

def rejuvenation? (ps : Parameters) : Option RejuvenationConfig := do
  guard (ps.fit 4)
  let d : RejuvenationConfig := {}
  return {
    particles := ← ps.read? 0 "particles" Content.toCount? d.particles
    steps := ← ps.read? 1 "rejuvenation_steps" Content.toCount? d.steps
    restricted := ← ps.read? 2 "restricted" Content.toBool? d.restricted
    collectAll := ← ps.read? 3 "collect_all_iterations" Content.toBool? d.collectAll }

def normalization? (content : Content) : Option Normalization := do
  let all := [Normalization.finalWeights, .lastFactorMean]
  all[← content.toName? (all.map Normalization.name)]?

def async? (ps : Parameters) : Option AsyncConfig := do
  guard (ps.fit 3)
  let d : AsyncConfig := {}
  return {
    particles := ← ps.read? 0 "particles" Content.toCount? d.particles
    bufferSize := ← ps.read? 1 "buffer_size" Content.toCount? d.bufferSize
    normalization := ← ps.read? 2 "normalization" normalization? d.normalization }

/-- The algorithm of a name, with its parameters. -/
def algorithm? (ps : Parameters) : String → Option Algorithm
  | "mh" => ps.mh?.map .metropolis
  | "particle-filter" => ps.filter?.map .filter
  | "rejuvenation" => ps.rejuvenation?.map .rejuvenation
  | "async-smc" => ps.async?.map .async
  | _ => none

end Parameters

end Posterior
