import Posterior.Yaml.Property
import Posterior.Yaml.Scalar

/-!
The tokens of configuration text. Indentation becomes tokens that open and close blocks. That a
scalar is a key shows only at the colon after it, so the place where a key may start is remembered
and the key's token is put there afterwards.
-/

namespace Posterior.Yaml

inductive Token where
  | directive (directive : Directive)
  | documentStart
  | documentEnd
  | blockList
  | blockRecord
  | blockEnd
  | openList
  | closeList
  | openRecord
  | closeRecord
  | item
  | comma
  | key
  | value
  | reference (name : String)
  | anchor (name : String)
  | tag (tag : Tag)
  | scalar (style : Style) (text : String)
  deriving DecidableEq, Inhabited

/-- A place where a key may start. -/
structure Candidate where
  /-- How many tokens come before it. -/
  before : Nat
  index : Nat
  line : Nat
  column : Nat
  /-- Whether only a key can stand there. -/
  required : Bool

/-- A key and its colon stand on one line and not too far apart. -/
def Candidate.isStale (k : Candidate) (c : Cursor) : Bool :=
  k.line < c.line || k.index + 1024 < c.index

structure Lexer where
  cursor : Cursor
  tokens : Array Token := #[]
  /-- The columns of the open blocks, innermost first. -/
  blocks : List Nat := []
  keyAllowed : Bool := true
  /-- Where a key may start at the present depth of brackets. -/
  candidate : Option Candidate := none
  /-- The same for the brackets around, innermost first. -/
  outer : List (Option Candidate) := []
  deriving Inhabited

namespace Lexer

def inFlow (l : Lexer) : Bool := !l.outer.isEmpty

/-- The least column of what belongs to the innermost block. -/
def contentColumn (l : Lexer) : Nat :=
  match l.blocks with
  | [] => 0
  | column :: _ => column + 1

def emit (t : Token) (l : Lexer) : Lexer := { l with tokens := l.tokens.push t }

def moveTo (rest : List Char) (l : Lexer) : Lexer := { l with cursor := l.cursor.moveTo rest }

def allowKey (allowed : Bool) (l : Lexer) : Lexer := { l with keyAllowed := allowed }

/-- Gives up a candidate, which must not be required. -/
def giveUp (stale : Candidate → Bool) : Option Candidate → Option (Option Candidate)
  | none => some none
  | some k => if !stale k then some (some k) else if k.required then none else some none

def dropStale (l : Lexer) : Option Lexer := do
  let stale (k : Candidate) : Bool := k.isStale l.cursor
  return { l with
    candidate := ← giveUp stale l.candidate
    outer := ← l.outer.mapM (giveUp stale) }

def dropCandidate (l : Lexer) : Option Lexer := do
  return { l with candidate := ← giveUp (fun _ => true) l.candidate }

/-- Remembers that a key may start here. -/
def markCandidate (l : Lexer) : Option Lexer :=
  if l.keyAllowed then do
    let l ← l.dropCandidate
    let c := l.cursor
    let required := !l.inFlow && l.blocks.head? == some c.column
    return { l with candidate := some ⟨l.tokens.size, c.index, c.line, c.column, required⟩ }
  else some l

/-- Closes the blocks that are indented further than `column`. -/
def closeBlocks (column : Nat) (l : Lexer) : Lexer :=
  if l.inFlow then l
  else
    let closed := l.blocks.takeWhile (column < ·)
    { l with
      blocks := l.blocks.drop closed.length
      tokens := l.tokens ++ closed.map fun _ => Token.blockEnd }

def closeAllBlocks (l : Lexer) : Lexer :=
  if l.inFlow then l
  else { l with blocks := [], tokens := l.tokens ++ l.blocks.map fun _ => Token.blockEnd }

/-- Puts tokens behind the first `before`. -/
def insertAt (before : Nat) (ts : List Token) (l : Lexer) : Lexer :=
  let all := l.tokens.toList
  { l with tokens := (all.take before ++ ts ++ all.drop before).toArray }

/-- Opens a block at a column that lies further in than the blocks that are open. -/
def openBlock (t : Token) (before column : Nat) (l : Lexer) : Lexer :=
  if !l.inFlow && l.blocks.all (· < column) then
    { l.insertAt before [t] with blocks := column :: l.blocks }
  else l

/-- What has been skipped of a line. -/
inductive Skipped where
  | nothing
  | blanks
  | comment
  deriving DecidableEq

/-- Blanks, comments and line breaks between tokens; also whether a key may start after them. A tab
is not skipped where it could pass for indentation. A byte order mark may open a line. -/
def skip (inFlow : Bool) : Bool → Skipped → List Char → Bool × List Char
  | allowed, _, [] => (allowed, [])
  | allowed, skipped, c :: cs =>
    if isBreak c then skip inFlow (allowed || !inFlow) .nothing cs
    else if skipped = .comment || c == '#' then skip inFlow allowed .comment cs
    else if c == ' ' || (c == '\t' && (inFlow || !allowed)) || (c == '\ufeff' && skipped = .nothing)
      then skip inFlow allowed .blanks cs
    else (allowed, c :: cs)

/-- Goes on to the next token. -/
def toNextToken (l : Lexer) : Option Lexer := do
  let skipped := if l.cursor.column == 0 then Skipped.nothing else .blanks
  let (allowed, rest) := skip l.inFlow l.keyAllowed skipped l.cursor.rest
  let l ← (l.moveTo rest |>.allowKey allowed).dropStale
  return l.closeBlocks l.cursor.column

/-- A token of one mark, or of three. -/
def mark (t : Token) (width : Nat) (l : Lexer) : Lexer :=
  l.emit t |>.moveTo (l.cursor.rest.drop width)

def readDirectiveLine (l : Lexer) : Option Lexer := do
  let l ← l.closeAllBlocks.dropCandidate
  let (directive, rest) ← readDirective l.cursor.rest.tail
  return (l.emit (.directive directive) |>.moveTo rest |>.allowKey false)

def readMarker (t : Token) (l : Lexer) : Option Lexer := do
  let l ← l.closeAllBlocks.dropCandidate
  return (l.mark t 3 |>.allowKey false)

def openBracket (t : Token) (l : Lexer) : Option Lexer := do
  let l ← l.markCandidate
  return ({ l with candidate := none, outer := l.candidate :: l.outer } |>.mark t 1 |>.allowKey true)

def closeBracket (t : Token) (l : Lexer) : Option Lexer := do
  let l ← l.dropCandidate
  let l := match l.outer with
    | [] => l
    | candidate :: outer => { l with candidate, outer }
  return (l.mark t 1 |>.allowKey false)

def readComma (l : Lexer) : Option Lexer := do
  return ((← l.dropCandidate).mark .comma 1 |>.allowKey true)

/-- The mark of an item or of a key that is written out, which opens a block if need be. -/
def readMark (block t : Token) (allowed : Bool) (l : Lexer) : Option Lexer := do
  if !l.inFlow && !l.keyAllowed then none
  let l ← (l.openBlock block l.tokens.size l.cursor.column).dropCandidate
  return (l.mark t 1 |>.allowKey allowed)

/-- The colon before a value. What was read since the candidate was its key. -/
def readColon (l : Lexer) : Option Lexer :=
  match l.candidate with
  | some k =>
    let l := { l.insertAt k.before [.key] with candidate := none }
    some (l.openBlock .blockRecord k.before k.column |>.mark .value 1 |>.allowKey false)
  | none => do
    if !l.inFlow && !l.keyAllowed then none
    let l := l.openBlock .blockRecord l.tokens.size l.cursor.column
    return (l.mark .value 1 |>.allowKey !l.inFlow)

/-- A token that may start a key and is read in one go. -/
def readWith (read : List Char → Option (Token × List Char)) (l : Lexer) : Option Lexer := do
  let l ← l.markCandidate
  let (t, rest) ← read l.cursor.rest
  return (l.emit t |>.moveTo rest |>.allowKey false)

def readBlockScalar (style : Style) (l : Lexer) : Option Lexer := do
  let l ← l.dropCandidate
  let (text, rest) ← readBlock style l.contentColumn l.cursor.rest.tail
  return (l.emit (.scalar style (.ofList text)) |>.moveTo rest |>.allowKey true)

def readQuotedScalar (double : Bool) : Lexer → Option Lexer := readWith fun cs => do
  let (text, rest) ← readQuoted double cs.tail
  return (.scalar .quoted (.ofList text), rest)

def readPlainScalar (l : Lexer) : Option Lexer := do
  let l ← l.markCandidate
  let plain ← readPlain l.inFlow l.contentColumn l.cursor.column l.cursor.rest
  return (l.emit (.scalar .plain (.ofList plain.text)) |>.moveTo plain.rest
    |>.allowKey plain.lineEnded)

/-- Whether a plain scalar may start with this character and what follows it. -/
def startsPlain (inFlow : Bool) (c : Char) (cs : List Char) : Bool :=
  let marks := ['-', '?', ':', ',', '[', ']', '\x7b', '\x7d', '#', '&', '*', '!', '|', '>', '\x27',
    '\x22', '%', '@', '\x60']
  !(isGap c || marks.contains c) || (c == '-' && !cs.head?.any isBlank) ||
    (!inFlow && (c == '?' || c == ':') && !endsWord cs)

/-- Reads the token that starts here. -/
def readToken (c : Char) (cs : List Char) (l : Lexer) : Option Lexer :=
  let word := l.inFlow || endsWord cs
  if l.cursor.column == 0 && c == '%' then l.readDirectiveLine
  else if l.cursor.column == 0 && startsMarker '-' (c :: cs) then l.readMarker .documentStart
  else if l.cursor.column == 0 && startsMarker '.' (c :: cs) then l.readMarker .documentEnd
  else if c == '[' then l.openBracket .openList
  else if c == '\x7b' then l.openBracket .openRecord
  else if c == ']' then l.closeBracket .closeList
  else if c == '\x7d' then l.closeBracket .closeRecord
  else if c == ',' then l.readComma
  else if c == '-' && endsWord cs then l.readMark .blockList .item true
  else if c == '?' && word then l.readMark .blockRecord .key !l.inFlow
  else if c == ':' && word then l.readColon
  else if c == '*' then l.readWith fun cs => do
    let (name, rest) ← readName cs.tail
    return (.reference name, rest)
  else if c == '&' then l.readWith fun cs => do
    let (name, rest) ← readName cs.tail
    return (.anchor name, rest)
  else if c == '!' then l.readWith fun cs => do
    let (tag, rest) ← readTag l.inFlow cs
    return (.tag tag, rest)
  else if c == '|' && !l.inFlow then l.readBlockScalar .literal
  else if c == '>' && !l.inFlow then l.readBlockScalar .folded
  else if c == '\x27' then l.readQuotedScalar false
  else if c == '\x22' then l.readQuotedScalar true
  else if startsPlain l.inFlow c cs then l.readPlainScalar
  else none

/-- The end of the text closes every block. -/
def finish (l : Lexer) : Option Lexer := l.closeAllBlocks.dropCandidate

/-- Every token takes a character at least, so as many steps as there are characters suffice. -/
def run : Nat → Lexer → Option Lexer
  | 0, l => l.finish
  | fuel + 1, l => do
    let l ← l.toNextToken
    match l.cursor.rest with
    | [] => l.finish
    | c :: cs => run fuel (← l.readToken c cs)

end Lexer

def Token.ofText? (text : String) : Option (List Token) := do
  let cs := text.toList
  if !cs.all isAllowed then none
  let l ← Lexer.run (cs.length + 1) { cursor := { rest := cs } }
  return l.tokens.toList

end Posterior.Yaml
