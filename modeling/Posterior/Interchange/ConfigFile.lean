import Posterior.Yaml.Resolution

/-!
Configuration files. A file holds one record with an algorithm and, if they are not the defaults,
the seeds and the number of chains. A file that can be read must also be valid.
-/

namespace Posterior

open Yaml

/-- The field of a name, which is given at most once. -/
def fieldOr {α : Type} (name : String) (decode : Node → Resolver α) (default : Option α)
    (fields : List (String × Node)) : Resolver α :=
  match fields.filter (·.1 == name) with
  | [] => default
  | [field] => decode field.2
  | _ => failure

/-- How deep lists and records may lie in each other. -/
def maxNesting : Nat := 128

/-- The type of the algorithm and its parameters, all in one record or list. -/
def Algorithm.ofNode (depth : Nat) (n : Node) : Resolver Algorithm := do
  let n ← n.resolve
  if n.hasLocalTag then failure
  match n with
  | .record _ rows =>
    let rows ← rows.mapM fun (key, value) => return (← key.content depth, value)
    let (types, others) := rows.partition fun row =>
      match row.1 with
      | .str "type" => true
      | _ => false
    let parameters ← others.mapM fun (key, value) => return (key, ← value.content depth)
    match types with
    | [(_, type)] => Parameters.algorithm? (.named parameters) (← type.text)
    | _ => failure
  | .list _ (type :: items) =>
    Parameters.algorithm? (.listed (← items.mapM (·.content depth))) (← type.text)
  | _ => failure

def SeedPolicy.ofNode (n : Node) : Resolver SeedPolicy := do
  let fields ← n.fields
  let d : SeedPolicy := {}
  return {
    masterSeed := ← fieldOr "master_seed" (fun n => return (← n.count).toUInt64)
      (some d.masterSeed) fields
    label := ← fieldOr "label" (·.optionalText) (some d.label) fields }

def Config.ofNode (root : Node) : Resolver Config := do
  let fields ← root.fields
  let algorithm ← fieldOr "algorithm" (Algorithm.ofNode (maxNesting - 2)) none fields
  let d : Config := { algorithm }
  return { d with
    seeds := ← fieldOr "seed_policy" SeedPolicy.ofNode (some d.seeds) fields
    chains := ← fieldOr "chains" (·.count) (some d.chains) fields }

/-- The configuration that a text holds, if it is a valid one. -/
def Config.ofText (text : String) : Except Failure Config := do
  let some c := (Node.ofText? text).bind (Node.readWith Config.ofNode) | throw .unreadableConfig
  c.validate
  return c

/-- The configuration in the file at `path`, of which the contents are at hand or a fault. -/
def Config.ofFile (path : String) (contents : Except FileFault ByteArray) :
    Except Failure Config :=
  Except.mapError (Failure.inFile path) do
    let bytes ← contents.mapError Failure.unreadableFile
    let some text := String.fromUTF8? bytes | throw (.unreadableFile .notText)
    Config.ofText text

end Posterior
