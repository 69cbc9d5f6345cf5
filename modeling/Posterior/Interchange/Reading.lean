import Posterior.Interchange.Parameters
import Posterior.Json.Number
import Posterior.Json.Reader

/-!
Reading documents back. A record may also be written as the list of its fields in order. Fields
that a record does not have are passed over, a field given twice is a fault. What is read may nest
only so deep; what is passed over may nest at will.
-/

namespace Posterior.Json

/-- Reads a document with a number of levels left to it. -/
abbrev Decoder (α : Type) := Nat → Json → Option α

/-- The levels left to a whole document. -/
def maxDepth : Nat := 128

/-- The levels left inside a list or record; the last level cannot be entered. -/
def enter : Nat → Option Nat
  | depth + 2 => some (depth + 1)
  | _ => none

def toBool? : Decoder Bool
  | _, .bool b => some b
  | _, _ => none

def toCount? : Decoder Nat
  | _, .number n => n.toCount?
  | _, _ => none

def toReal? : Decoder Float
  | _, .number n => n.toReal?
  | _, _ => none

def toString? : Decoder String
  | _, .str s => s
  | _, _ => none

/-- Reads a text that is one document. -/
def read? {α : Type} (decode : Decoder α) (text : String) : Option α := do
  decode maxDepth (← ofText? text)

/-- Null reads as an absent value. -/
def toOption? {α : Type} (decode : Decoder α) : Decoder (Option α)
  | _, .null => some none
  | depth, json => (decode depth json).map some

def toLogWeight? : Decoder Float := fun depth json =>
  (toOption? toReal? depth json).map (·.getD Numeric.negInf)

def toList? {α : Type} (decode : Decoder α) : Decoder (List α)
  | depth, .list items => do
    let depth ← enter depth
    items.mapM (decode depth)
  | _, _ => none

def keyed? : List (Option String × Json) → Option (List (String × Json)) :=
  List.mapM fun (key, value) => key.map fun key => (key, value)

/-- The table of a record; of two rows with one key the later counts. -/
def toTable? {α : Type} (decode : Decoder α) : Decoder (Table String α)
  | depth, .record fields => do
    let depth ← enter depth
    let rows ← (← keyed? fields).mapM fun (key, value) => return (key, ← decode depth value)
    return .ofList rows
  | _, _ => none

/-- What becomes of a field that is missing. -/
inductive Presence where
  | required
  /-- Absent if missing from a record, required in a list. -/
  | nullable
  | defaulted
  deriving DecidableEq

/-- The value of a field that is there at most once. -/
def column? (name : String) (presence : Presence) (fields : List (String × Json)) :
    Option (Option Json) :=
  match fields.filter (·.1 == name) with
  | [] => if presence = .required then none else some none
  | [field] => some (some field.2)
  | _ => none

def positions? : List (String × Presence) → List Json → Option (List (Option Json))
  | [], [] => some []
  | [], _ :: _ => none
  | _ :: columns, item :: items => (positions? columns items).map (some item :: ·)
  | (_, presence) :: columns, [] =>
    if presence = .defaulted then (positions? columns []).map (none :: ·) else none

/-- The columns of a record, with the levels left inside it. -/
def toColumns? (columns : List (String × Presence)) : Decoder (Nat × List (Option Json))
  | depth, .record fields => do
    let depth ← enter depth
    let fields ← keyed? fields
    return (depth, ← columns.mapM fun (name, presence) => column? name presence fields)
  | depth, .list items => do
    let depth ← enter depth
    return (depth, ← positions? columns items)
  | _, _ => none

/-- Reads a column, if it is there. -/
def columnOr {α : Type} (decode : Decoder α) (default : α) (depth : Nat) :
    Option Json → Option α
  | some json => decode depth json
  | none => some default

def required? {α : Type} (decode : Decoder α) (depth : Nat) : Option Json → Option α
  | some json => decode depth json
  | none => none

/-- The content of a document, which must be sound throughout. -/
def toContent? : Decoder Content
  | _, .null => some .null
  | _, .bool b => some (.bool b)
  | _, .number n => n.kind?.map fun
    | .count k => .count k
    | .below i => .signed i
    | .real _ => .real
  | _, .str s => s.map .str
  | depth + 2, .list items => (items.mapM (toContent? (depth + 1))).map .list
  | depth + 2, .record fields => do
    let rows ← fields.mapM fun (key, value) =>
      return (Content.str (← key), ← toContent? (depth + 1) value)
    return .record rows
  | _, _ => none

/-- A tag in a record: a string, or a record with the tag as its only key and null under it. In
kept content there may be an empty record under it instead. -/
def toTag? (kept : Bool) : Decoder String
  | _, .str s => s
  | depth, .record [(key, .null)] => (enter depth).bind fun _ => key
  | depth, .record [(key, .record [])] => if kept then (enter depth).bind fun _ => key else none
  | _, _ => none

/-- A tag at the head of a list: a string, or in kept content its place among the tags. -/
def toListedTag? (tags : List String) (kept : Bool) : Decoder String
  | _, .str s => s
  | depth, json => if kept then (toCount? depth json).bind (tags[·]?) else none

/-- A document with a tag and the content that the tag explains. -/
structure Tagged where
  tag : String
  content : Option Json
  /-- The levels left inside. -/
  depth : Nat
  /-- Whether the content was kept until its tag was known. -/
  kept : Bool

/-- A tagged record, or the list of its tag and its content. In a record the content may come before
the tag; then it must be sound, since it is kept, with all that lies in it. -/
def toTagged? (tagName contentName : String) (tags : List String) (kept : Bool) : Decoder Tagged
  | depth, .record fields => do
    let depth ← enter depth
    let fields ← keyed? fields
    let tag ← toTag? kept depth (← (← column? tagName .required fields))
    let content ← column? contentName .nullable fields
    let first := (fields.map (·.1)).find? fun name => name == tagName || name == contentName
    match content with
    | some json =>
      if first == some contentName then
        let _ ← toContent? depth json
        return ⟨tag, json, depth, true⟩
      else return ⟨tag, json, depth, kept⟩
    | none => return ⟨tag, none, depth, kept⟩
  | depth, .list [tag, content] => do
    let depth ← enter depth
    return ⟨← toListedTag? tags kept depth tag, content, depth, kept⟩
  | _, _ => none

end Posterior.Json

namespace Posterior

open Json

/-- The tags of values, in the order of their kinds. -/
def Value.tags : List String := ["unit", "bool", "int", "real", "str", "list"]

/-- A value, which may lie in kept content. Every level of lists takes two levels of the
document. -/
def Value.decode? : Bool → Decoder Value
  | kept, depth + 2, json => do
    let t ← toTagged? "kind" "value" Value.tags kept (depth + 2) json
    match t.tag, t.content with
    | "unit", none => return .unit
    | "unit", some .null => return .unit
    | "bool", some json => return .bool (← toBool? t.depth json)
    | "int", some (.number n) => return .int (← n.toInt?)
    | "real", some json => return .real (← toReal? t.depth json)
    | "str", some json => return .str (← toString? t.depth json)
    | "list", some (.list items) =>
      let _ ← enter t.depth
      return .list (← items.mapM (Value.decode? t.kept depth))
    | _, _ => none
  | _, _, _ => none

def Value.ofJson? : Decoder Value := Value.decode? false

def Address.ofJson? : Decoder Address := fun depth json => (toString? depth json).map Address.mk

def Store.ofJson? : Decoder Store := fun depth json => do
  match ← toColumns? [("slots", .required)] depth json with
  | (depth, [slots]) => required? (toTable? Value.ofJson?) depth slots
  | _ => none

def HandlerId.ofJson? : Decoder HandlerId := fun depth json =>
  (toCount? depth json).map HandlerId.mk

/-- A value with its probability. -/
def supportRow? : Decoder (Value × Float)
  | depth, .list [value, p] => do
    let depth ← enter depth
    return (← Value.ofJson? depth value, ← toReal? depth p)
  | _, _ => none

def Empirical.ofJson? : Decoder Empirical := fun depth json => do
  match ← toColumns? [("support", .required), ("log_normalizer", .required),
    ("acceptance_ratio", .defaulted), ("samples", .required)] depth json with
  | (depth, [support, logNormalizer, acceptanceRatio, samples]) =>
    return {
      support := ← required? (toList? supportRow?) depth support
      logNormalizer := ← required? toLogWeight? depth logNormalizer
      acceptanceRatio := ← columnOr (toOption? toReal?) none depth acceptanceRatio
      samples := ← required? toCount? depth samples }
  | _ => none

def Detail.ofJson? : Decoder Detail := fun depth json => do
  match ← toColumns? [("code", .required), ("message", .required), ("context", .defaulted),
    ("hint", .nullable)] depth json with
  | (depth, [code, message, context, hint]) =>
    return {
      code := ← required? toString? depth code
      message := ← required? toString? depth message
      context := ← columnOr (toTable? toString?) .empty depth context
      hint := ← columnOr (toOption? toString?) none depth hint }
  | _ => none

def Report.ofJson? : Decoder Report := fun depth json => do
  let t ← toTagged? "family" "detail" (Family.all.map Family.name) false depth json
  return ⟨← Family.ofName? t.tag, ← required? Detail.ofJson? t.depth t.content⟩

def Barrier.ofJson? : Decoder Barrier := fun depth json => do
  match ← toColumns? [("barrier", .required), ("log_mean_weight", .required),
    ("effective_sample_size", .required), ("distinct_ancestors", .required),
    ("degenerate", .required)] depth json with
  | (depth, [index, logMeanWeight, effectiveSampleSize, distinctAncestors, degenerate]) =>
    return {
      index := ← required? toCount? depth index
      logMeanWeight := ← required? toLogWeight? depth logMeanWeight
      effectiveSampleSize := ← required? toReal? depth effectiveSampleSize
      distinctAncestors := ← required? toCount? depth distinctAncestors
      degenerate := ← required? toBool? depth degenerate }
  | _ => none

def Metrics.ofJson? : Decoder Metrics := fun depth json => do
  match ← toColumns? [("executions", .required), ("proposals", .required),
    ("accepted", .required), ("rejuvenation_moves", .required),
    ("rejuvenation_accepted", .required), ("particles_spawned", .required),
    ("particles_dropped", .required), ("barriers", .required)] depth json with
  | (depth, [executions, proposals, accepted, rejuvenationMoves, rejuvenationAccepted,
      particlesSpawned, particlesDropped, barriers]) =>
    return {
      executions := ← required? toCount? depth executions
      proposals := ← required? toCount? depth proposals
      accepted := ← required? toCount? depth accepted
      rejuvenationMoves := ← required? toCount? depth rejuvenationMoves
      rejuvenationAccepted := ← required? toCount? depth rejuvenationAccepted
      particlesSpawned := ← required? toCount? depth particlesSpawned
      particlesDropped := ← required? toCount? depth particlesDropped
      barriers := ← required? (toList? Barrier.ofJson?) depth barriers }
  | _ => none

def Inference.ofJson? : Decoder Inference := fun depth json => do
  match ← toColumns? [("distribution", .required), ("metrics", .required)] depth json with
  | (depth, [distribution, metrics]) =>
    return ⟨← required? Empirical.ofJson? depth distribution,
      ← required? Metrics.ofJson? depth metrics⟩
  | _ => none

def Summary.ofJson? : Decoder Summary := fun depth json => do
  match ← toColumns? [("algorithm", .required), ("seed", .required), ("distribution", .required),
    ("metrics", .required)] depth json with
  | (depth, [algorithm, seed, distribution, metrics]) =>
    return {
      algorithm := ← required? toString? depth algorithm
      seed := (← required? toCount? depth seed).toUInt64
      distribution := ← required? Empirical.ofJson? depth distribution
      metrics := ← required? Metrics.ofJson? depth metrics }
  | _ => none

/-- The type of the algorithm and its parameters, all in one record or list. -/
def Algorithm.ofJson? : Decoder Algorithm
  | depth, .record fields => do
    let depth ← enter depth
    let fields ← keyed? fields
    let (types, others) := fields.partition (·.1 == "type")
    let parameters ← others.mapM fun (key, value) =>
      return (Content.str key, ← toContent? depth value)
    match types with
    | [(_, type)] => Parameters.algorithm? (.named parameters) (← toString? depth type)
    | _ => none
  | depth, .list (type :: items) => do
    let depth ← enter depth
    let parameters ← items.mapM (toContent? depth)
    Parameters.algorithm? (.listed parameters) (← toString? depth type)
  | _, _ => none

def SeedPolicy.ofJson? : Decoder SeedPolicy := fun depth json => do
  let d : SeedPolicy := {}
  match ← toColumns? [("master_seed", .defaulted), ("label", .defaulted)] depth json with
  | (depth, [masterSeed, label]) =>
    return {
      masterSeed := ← columnOr (fun depth json => (toCount? depth json).map Nat.toUInt64)
        d.masterSeed depth masterSeed
      label := ← columnOr (toOption? toString?) d.label depth label }
  | _ => none

def Config.ofJson? : Decoder Config := fun depth json => do
  match ← toColumns? [("algorithm", .required), ("seed_policy", .defaulted),
    ("chains", .defaulted)] depth json with
  | (depth, [algorithm, seeds, chains]) =>
    let d : Config := ⟨← required? Algorithm.ofJson? depth algorithm, {}, 1⟩
    return { d with
      seeds := ← columnOr SeedPolicy.ofJson? d.seeds depth seeds
      chains := ← columnOr toCount? d.chains depth chains }
  | _ => none

end Posterior
