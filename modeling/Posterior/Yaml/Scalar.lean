import Posterior.Text.Digits
import Posterior.Yaml.Cursor

/-!
Scalars as they are written: plain, quoted, or as a block of lines. Each reader takes a scalar off
the front of a text and hands back what the scalar says and the rest of the text.
-/

namespace Posterior.Yaml

/-- How a scalar is written. -/
inductive Style where
  | plain
  | quoted
  /-- A block whose line breaks are kept. -/
  | literal
  /-- A block whose lines are joined by spaces. -/
  | folded
  deriving DecidableEq, Inhabited

/-- The marks that separate things inside brackets. -/
def isFlowMark (c : Char) : Bool :=
  c == ',' || c == '[' || c == ']' || c == '\x7b' || c == '\x7d'

/-- What is read of a plain scalar. -/
structure Plain where
  text : List Char
  rest : List Char
  /-- Whether the scalar was followed by a line break. -/
  lineEnded : Bool

/-- A word of a plain scalar. Inside brackets a colon must not stand before a mark. -/
def readWord (inFlow : Bool) : List Char → Option (List Char × List Char)
  | [] => some ([], [])
  | c :: cs =>
    if isGap c || (inFlow && isFlowMark c) then some ([], c :: cs)
    else if c == ':' && endsWord cs then some ([], c :: cs)
    else if c == ':' && inFlow && cs.head?.any (fun d => isFlowMark d || d == '?') then none
    else do
      let (word, rest) ← readWord inFlow cs
      return (c :: word, rest)

/-- The column after a gap. A tab must not stand in for indentation. -/
def columnAfter (indent : Nat) : Bool → Nat → List Char → Option Nat
  | _, column, [] => some column
  | onNewLine, column, c :: cs =>
    if isBreak c then columnAfter indent true 0 cs
    else if onNewLine && column < indent && c == '\t' then none
    else columnAfter indent onNewLine (column + 1) cs

/-- The words of a plain scalar. Outside of brackets it ends with the first line that is indented
by less than `indent`. -/
def readWords (inFlow : Bool) (indent : Nat) : Nat → Nat → List Char → Option Plain
  | 0, _, cs => some ⟨[], cs, false⟩
  | fuel + 1, column, cs =>
    if cs.head? == some '#' || (column == 0 && startsAnyMarker cs) then some ⟨[], cs, false⟩
    else do
      let (word, rest) ← readWord inFlow cs
      let (gap, next) := readGap rest
      if gap.isEmpty then return ⟨word, rest, false⟩
      let column ← columnAfter indent false (column + word.length) gap
      if !inFlow && column < indent then return ⟨word, next, gap.any isBreak⟩
      let more ← readWords inFlow indent fuel column next
      if more.text.isEmpty then return ⟨word, next, gap.any isBreak⟩
      return { more with text := word ++ foldGap gap ++ more.text }

def readPlain (inFlow : Bool) (indent column : Nat) (cs : List Char) : Option Plain :=
  readWords inFlow indent (cs.length + 1) column cs

/-- Characters that are escaped by a letter or by themselves. -/
def escaped? (c : Char) : Option Char :=
  [('0', '\x00'), ('a', '\x07'), ('b', '\x08'), ('t', '\t'), ('\t', '\t'), ('n', '\n'),
    ('v', '\x0b'), ('f', '\x0c'), ('r', '\r'), ('e', '\x1b'), (' ', ' '), ('\x22', '\x22'),
    ('/', '/'), ('\\', '\\'), ('N', '\x85'), ('_', '\xa0'), ('L', '\u2028'),
    ('P', '\u2029')].lookup c

/-- How many digits spell the character that this letter escapes. -/
def escapeLength? (c : Char) : Option Nat := [('x', 2), ('u', 4), ('U', 8)].lookup c

/-- An escape, after its backslash. -/
def readEscape : List Char → Option (Char × List Char)
  | [] => none
  | c :: cs =>
    match escaped? c, escapeLength? c with
    | some x, _ => some (x, cs)
    | none, some n => do
      let code ← Text.readWhole? 16 (cs.take n)
      if (cs.take n).length == n && code.isValidChar then return (Char.ofNat code, cs.drop n)
      none
    | none, none => none

def endsLine (gap : List Char) : Bool := gap.getLast?.any isBreak

/-- A quoted scalar after its opening quote. Between single quotes only the quote itself is
escaped, by doubling it. An escaped line break is dropped. -/
def readQuotedFrom (double : Bool) : Nat → Bool → List Char → Option (List Char × List Char)
  | 0, _, _ => none
  | _, _, [] => none
  | fuel + 1, lineStart, c :: cs =>
    if lineStart && startsAnyMarker (c :: cs) then none
    else if isGap c then do
      let (gap, next) := readGap (c :: cs)
      let (text, rest) ← readQuotedFrom double fuel (endsLine gap) next
      return (foldGap gap ++ text, rest)
    else if !double && c == '\x27' then
      match cs with
      | '\x27' :: cs => do
        let (text, rest) ← readQuotedFrom double fuel false cs
        return ('\x27' :: text, rest)
      | _ => some ([], cs)
    else if double && c == '\x22' then some ([], cs)
    else if double && c == '\\' then
      if cs.head?.any isBreak then do
        let (gap, next) := readGap cs
        let (text, rest) ← readQuotedFrom double fuel (endsLine gap) next
        return ((lineBreaks gap).drop 1 ++ text, rest)
      else do
        let (x, cs) ← readEscape cs
        let (text, rest) ← readQuotedFrom double fuel false cs
        return (x :: text, rest)
    else do
      let (text, rest) ← readQuotedFrom double fuel false cs
      return (c :: text, rest)

def readQuoted (double : Bool) (cs : List Char) : Option (List Char × List Char) :=
  readQuotedFrom double (cs.length + 1) false cs

/-- What becomes of the line breaks at the end of a block. -/
inductive Chomping where
  | strip
  /-- Only the last line keeps its break. -/
  | clip
  | keep
  deriving DecidableEq

def chomping? : Char → Option Chomping
  | '+' => some .keep
  | '-' => some .strip
  | _ => none

/-- What a block says of itself: the treatment of its end and how far it is indented. -/
structure BlockHeader where
  chomping : Chomping := .clip
  indentation : Option Nat := none

/-- A digit that says how far a block is indented; it is not zero. -/
def readIndentation (cs : List Char) : Option (Option Nat × List Char) :=
  match cs.head?.bind Text.digit? with
  | none => some (none, cs)
  | some 0 => none
  | some d => some (some d, cs.tail)

/-- The line on which a block is announced. The two marks come in any order; after blanks there may
be a comment. -/
def readBlockHeader (cs : List Char) : Option (BlockHeader × List Char) := do
  let (header, cs) ← match cs.head?.bind chomping? with
    | some chomping => do
      let (indentation, cs) ← readIndentation cs.tail
      pure ({ chomping, indentation : BlockHeader }, cs)
    | none => do
      let (indentation, cs) ← readIndentation cs
      match indentation, cs.head?.bind chomping? with
      | some _, some chomping => pure ({ chomping, indentation : BlockHeader }, cs.tail)
      | _, _ => pure ({ indentation }, cs)
  let cs := cs.dropWhile isBlank
  let cs := if cs.head? == some '#' then restOfLine cs else cs
  if !cs.isEmpty && !cs.head?.any isBreak then none
  return (header, afterBreak cs)

/-- What lies between two lines of a block. -/
structure BlockGap where
  breaks : List Char
  /-- The column of what follows. -/
  column : Nat
  /-- The greatest column reached on the way. -/
  widest : Nat
  rest : List Char

/-- Empty lines, and the indentation of the next line as far as it belongs to the block. A tab must
not stand in for it. -/
def readBlockGap (indent : Option Nat) : Nat → Nat → List Char → Option BlockGap
  | column, widest, [] => some ⟨[], column, max column widest, []⟩
  | column, widest, c :: cs =>
    let short := indent.all (column < ·)
    if short && c == ' ' then readBlockGap indent (column + 1) widest cs
    else if short && c == '\t' then none
    else if c == '\r' && cs.head? == some '\n' then readBlockGap indent column widest cs
    else if isBreak c then do
      let gap ← readBlockGap indent 0 (max column widest) cs
      return { gap with breaks := lineBreaks [c] ++ gap.breaks }
    else some ⟨[], column, max column widest, c :: cs⟩

/-- What is read of the lines of a block. -/
structure BlockLines where
  text : List Char
  /-- The break of the last line. -/
  lastBreak : List Char
  /-- The breaks of the empty lines after it. -/
  trailing : List Char
  rest : List Char

/-- How two lines of a block are joined. Lines that start with a blank are not folded. -/
def joinLines (style : Style) (lineBreak trailing : List Char) (afterBlank blank : Bool) :
    List Char :=
  if style == .folded && lineBreak.head? == some '\n' && !afterBlank && !blank then
    if trailing.isEmpty then [' '] else trailing
  else lineBreak ++ trailing

/-- The lines of a block, from the gap before the first of them. -/
def readBlockLines (style : Style) (indent : Nat) :
    Nat → List Char → Bool → BlockGap → Option BlockLines
  | fuel + 1, lineBreak, afterBlank, gap =>
    if gap.column != indent || gap.rest.isEmpty then
      some ⟨[], lineBreak, gap.breaks, gap.rest⟩
    else do
      let line := gap.rest.takeWhile (!isBreak ·)
      let blank := line.head?.any isBlank
      let next := restOfLine gap.rest
      let lineEnd := lineBreaks (next.take (next.length - (afterBreak next).length))
      let gap' ← readBlockGap (some indent) 0 0 (afterBreak next)
      let lines ← readBlockLines style indent fuel lineEnd blank gap'
      return { lines with
        text := joinLines style lineBreak gap.breaks afterBlank blank ++ line ++ lines.text }
  | 0, lineBreak, _, gap => some ⟨[], lineBreak, gap.breaks, gap.rest⟩

/-- A block after its mark, inside a block whose content is at column `outer` or beyond. Where the
block does not say how far it is indented, its first lines do. -/
def readBlock (style : Style) (outer : Nat) (cs : List Char) : Option (List Char × List Char) := do
  let (header, cs) ← readBlockHeader cs
  let given := header.indentation.map fun n => (outer - 1) + n
  let gap ← readBlockGap given 0 0 cs
  let indent := given.getD (max gap.widest (max outer 1))
  let lines ← readBlockLines style indent (cs.length + 1) [] false gap
  let ending := match header.chomping with
    | .strip => []
    | .clip => lines.lastBreak
    | .keep => lines.lastBreak ++ lines.trailing
  return (lines.text ++ ending, lines.rest)

end Posterior.Yaml
