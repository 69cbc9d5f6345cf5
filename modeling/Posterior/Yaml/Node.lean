import Posterior.Yaml.Token

/-!
The tree of a document. Nodes keep how they were written, because what a scalar means depends on
what is expected where it stands.
-/

namespace Posterior.Yaml

/-- What is said of a node besides its content. Anchors are told apart by numbers. -/
structure Properties where
  anchor : Option Nat := none
  tag : Option TagBytes := none
  deriving Inhabited

/-- A tag of the standard. -/
def standardTag (name : String) : TagBytes := .ofChars ("tag:yaml.org,2002:" ++ name).toList

inductive Node where
  | scalar (properties : Properties) (style : Style) (text : String)
  | list (properties : Properties) (items : List Node)
  | record (properties : Properties) (rows : List (Node × Node))
  /-- The node under an anchor. -/
  | reference (anchor : Nat)
  deriving Inhabited

namespace Node

def empty : Node := .scalar {} .plain ""

def properties : Node → Properties
  | scalar p _ _ => p
  | list p _ => p
  | record p _ => p
  | reference _ => {}

/-- A node under its anchor. -/
def underAnchor (n : Node) : List (Nat × Node) := (n.properties.anchor.map (·, n)).toList

mutual

/-- The nodes under anchors, in the order of the text. -/
def anchored : Node → List (Nat × Node)
  | scalar p style text => underAnchor (scalar p style text)
  | list p items => underAnchor (list p items) ++ anchoredItems items
  | record p rows => underAnchor (record p rows) ++ anchoredRows rows
  | reference _ => []

def anchoredItems : List Node → List (Nat × Node)
  | [] => []
  | n :: ns => anchored n ++ anchoredItems ns

def anchoredRows : List (Node × Node) → List (Nat × Node)
  | [] => []
  | (k, v) :: rows => anchored k ++ anchored v ++ anchoredRows rows

end

end Node

/-- What is left of the tokens, and the meanings of names and handles. -/
structure Scope where
  tokens : List Token
  /-- The anchors' names with their numbers. -/
  names : List (String × Nat) := []
  handles : List (String × TagBytes) := []

abbrev Builder := StateT Scope Option

namespace Builder

def peek? : Builder (Option Token) := return (← get).tokens.head?

def skip : Builder Unit := modify fun s => { s with tokens := s.tokens.tail }

/-- Whether the next token is one of these. -/
def isNext (ts : List Token) : Builder Bool := return (← peek?).any ts.contains

/-- Skips the next token if it is this one. -/
def skipIf (t : Token) : Builder Bool := do
  if ← isNext [t] then
    skip
    return true
  return false

/-- The number of a name from here on: how many names there were before. -/
def nameNode (name : String) : Builder Nat := do
  let names := (← get).names
  modify fun s => { s with names := (name, names.length) :: names.filter (·.1 != name) }
  return names.length

def fullTag (t : Tag) : Builder TagBytes := do
  if t.handle.isEmpty then return t.suffix
  return (← (← get).handles.lookup t.handle) ++ t.suffix

def anchor? : Builder (Option Nat) := do
  match ← peek? with
  | some (.anchor name) =>
    skip
    return some (← nameNode name)
  | _ => return none

def tag? : Builder (Option TagBytes) := do
  match ← peek? with
  | some (.tag t) =>
    skip
    return some (← fullTag t)
  | _ => return none

/-- An anchor and a tag, in any order. -/
def properties : Builder Properties := do
  match ← anchor? with
  | some anchor => return { anchor := some anchor, tag := ← tag? }
  | none => do
    let tag ← tag?
    if tag.isNone then return {}
    return { anchor := ← anchor?, tag }

mutual

/-- A node. Outside of brackets it may be a block; where `indentless` holds, the items of a list
need no block of their own. -/
def node (block indentless : Bool) : Nat → Builder Node
  | 0 => failure
  | fuel + 1 => do
    if let some (.reference name) ← peek? then
      skip
      return .reference (← (← get).names.lookup name)
    let p ← properties
    match ← peek? with
    | some .item => if indentless then return .list p (← looseItems fuel) else without p
    | some (.scalar style text) =>
      skip
      return .scalar p style text
    | some .openList =>
      skip
      return .list p (← flowItems true fuel)
    | some .openRecord =>
      skip
      return .record p (← flowRows true fuel)
    | some .blockList =>
      if !block then return ← without p
      skip
      return .list p (← blockItems fuel)
    | some .blockRecord =>
      if !block then return ← without p
      skip
      return .record p (← blockRows fuel)
    | _ => without p
where
  /-- A node without content must have an anchor or a tag. -/
  without (p : Properties) : Builder Node :=
    if p.anchor.isSome || p.tag.isSome then pure (.scalar p .plain "") else failure

/-- A node, or the empty one before one of the given tokens. -/
def nodeUnless (ts : List Token) (block : Bool) : Nat → Builder Node
  | 0 => failure
  | fuel + 1 => do if ← isNext ts then return .empty else node block block fuel

/-- The value of a row; without a colon it is empty. -/
def rowValue (ts : List Token) (block : Bool) : Nat → Builder Node
  | 0 => failure
  | fuel + 1 => do if ← skipIf .value then nodeUnless ts block fuel else return .empty

def blockItems : Nat → Builder (List Node)
  | 0 => failure
  | fuel + 1 => do
    if ← skipIf .blockEnd then return []
    if !(← skipIf .item) then failure
    let n ← if ← isNext [.item, .blockEnd] then pure .empty else node true false fuel
    return n :: (← blockItems fuel)

/-- The items of a list in the block of the record around it. -/
def looseItems : Nat → Builder (List Node)
  | 0 => failure
  | fuel + 1 => do
    if !(← skipIf .item) then return []
    let n ← if ← isNext [.item, .key, .value, .blockEnd] then pure .empty else node true false fuel
    return n :: (← looseItems fuel)

def blockRows : Nat → Builder (List (Node × Node))
  | 0 => failure
  | fuel + 1 => do
    if ← skipIf .blockEnd then return []
    if !(← skipIf .key) then failure
    let k ← nodeUnless [.key, .value, .blockEnd] true fuel
    let v ← rowValue [.key, .value, .blockEnd] true fuel
    return (k, v) :: (← blockRows fuel)

/-- The items up to the closing bracket; a comma may stand before it. A row among them is a record
of its own. -/
def flowItems (first : Bool) : Nat → Builder (List Node)
  | 0 => failure
  | fuel + 1 => do
    if ← skipIf .closeList then return []
    if !first && !(← skipIf .comma) then failure
    if ← skipIf .closeList then return []
    let n ← if ← skipIf .key then flowPair fuel else node false false fuel
    return n :: (← flowItems false fuel)

/-- A record of one row among the items of a list. The token before which its key is missing
belongs to the key. -/
def flowPair : Nat → Builder Node
  | 0 => failure
  | fuel + 1 => do
    let k ← if ← isNext [.value, .comma, .closeList] then do
        skip
        pure .empty
      else node false false fuel
    return .record {} [(k, ← rowValue [.comma, .closeList] false fuel)]

def flowRows (first : Bool) : Nat → Builder (List (Node × Node))
  | 0 => failure
  | fuel + 1 => do
    if ← skipIf .closeRecord then return []
    if !first && !(← skipIf .comma) then failure
    if ← skipIf .closeRecord then return []
    let row ← if ← skipIf .key then do
        let k ← nodeUnless [.value, .comma, .closeRecord] false fuel
        pure (k, ← rowValue [.comma, .closeRecord] false fuel)
      else
        pure (← node false false fuel, .empty)
    return row :: (← flowRows false fuel)

end

/-- Between two tokens that are taken off lie a few steps at most. -/
def depthFor (tokens : List Token) : Nat := 4 * tokens.length + 4

/-- The directives in front of a document; each thing is said once. -/
def directives : Nat → Bool → Builder Unit
  | fuel + 1, versionGiven => do
    match ← peek? with
    | some (.directive (.version major minor)) =>
      if versionGiven || major != 1 || (minor != 1 && minor != 2) then failure
      skip
      directives fuel true
    | some (.directive (.handle handle opening)) =>
      if ((← get).handles.lookup handle).isSome then failure
      skip
      modify fun s => { s with handles := s.handles ++ [(handle, opening)] }
      directives fuel versionGiven
    | _ => return ()
  | 0, _ => failure

def isDirective : Token → Bool
  | .directive _ => true
  | _ => false

/-- The only document of a text. After it there may be nothing but the marks of its end. -/
def document : Builder Node := do
  let tokens := (← get).tokens
  let depth := depthFor tokens
  directives depth false
  modify fun s => { s with
    handles := s.handles ++ [("!", .ofChars ['!']), ("!!", standardTag "")] }
  let root ← if ← skipIf .documentStart then do
      let rest := (← get).tokens
      if rest.isEmpty || rest.head?.any isDirective || (← isNext [.documentStart, .documentEnd]) then
        pure .empty
      else node true false depth
    else if tokens.head?.any isDirective then failure
    else node true false depth
  let rest := (← get).tokens
  if (rest.dropWhile (· == .documentEnd)).isEmpty then return root
  failure

end Builder

/-- The node that a text holds. -/
def Node.ofText? (text : String) : Option Node := do
  let (root, _) ← Builder.document { tokens := ← Token.ofText? text }
  return root

end Posterior.Yaml
