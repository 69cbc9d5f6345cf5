/-!
The characters of configuration text, the gaps between its words, and places in it. A place knows
its line and column, because columns decide what belongs together.
-/

namespace Posterior.Yaml

def isBreak (c : Char) : Bool :=
  c == '\n' || c == '\r' || c == '\x85' || c == '\u2028' || c == '\u2029'

def isBlank (c : Char) : Bool := c == ' ' || c == '\t'

def isGap (c : Char) : Bool := isBlank c || isBreak c

/-- The characters of names: letters, digits, the low line and the hyphen. -/
def isNameChar (c : Char) : Bool := c.isAlphanum || c == '_' || c == '-'

/-- The characters that a text may hold at all; of the controls only the tab and line breaks. -/
def isAllowed (c : Char) : Bool :=
  let n := c.toNat
  c == '\t' || c == '\n' || c == '\r' || (0x20 ≤ n && n ≤ 0x7E) || n == 0x85 ||
    (0xA0 ≤ n && n ≤ 0xD7FF) || (0xE000 ≤ n && n ≤ 0xFFFD) || 0x10000 ≤ n

/-- Whether a text starts with a gap or has ended. -/
def endsWord : List Char → Bool
  | [] => true
  | c :: _ => isGap c

/-- Whether a line starts with three hyphens, or three dots, and nothing else in that word. -/
def startsMarker (mark : Char) : List Char → Bool
  | a :: b :: c :: rest => a == mark && b == mark && c == mark && endsWord rest
  | _ => false

def startsAnyMarker (cs : List Char) : Bool := startsMarker '-' cs || startsMarker '.' cs

/-- The line breaks of a gap, each in its plain form. -/
def lineBreaks : List Char → List Char
  | [] => []
  | '\r' :: '\n' :: cs => '\n' :: lineBreaks cs
  | c :: cs =>
    if c == '\n' || c == '\r' || c == '\x85' then '\n' :: lineBreaks cs
    else if isBreak c then c :: lineBreaks cs
    else lineBreaks cs

/-- What a gap inside a scalar stands for. Blanks alone stay; one line break becomes a space, and
of several the first is dropped. The two separators are kept. -/
def foldGap (gap : List Char) : List Char :=
  match lineBreaks gap with
  | [] => gap
  | ['\n'] => [' ']
  | '\n' :: more => more
  | breaks => breaks

/-- The gap in front of a text, and the rest. -/
def readGap (cs : List Char) : List Char × List Char := (cs.takeWhile isGap, cs.dropWhile isGap)

def restOfLine (cs : List Char) : List Char := cs.dropWhile (!isBreak ·)

/-- The text after one line break. -/
def afterBreak : List Char → List Char
  | '\r' :: '\n' :: cs => cs
  | c :: cs => if isBreak c then cs else c :: cs
  | [] => []

/-- A place in a text. -/
structure Cursor where
  rest : List Char
  index : Nat := 0
  line : Nat := 0
  column : Nat := 0
  deriving Inhabited

namespace Cursor

/-- Past one character; a carriage return before a line feed does not end the line by itself. -/
def step (c : Cursor) : Cursor :=
  match c.rest with
  | [] => c
  | '\r' :: '\n' :: rest => { c with rest := '\n' :: rest, index := c.index + 1 }
  | x :: rest =>
    if isBreak x then ⟨rest, c.index + 1, c.line + 1, 0⟩
    else ⟨rest, c.index + 1, c.line, c.column + 1⟩

def advance : Nat → Cursor → Cursor
  | 0, c => c
  | n + 1, c => advance n c.step

/-- The place at which only `rest` is left. -/
def moveTo (c : Cursor) (rest : List Char) : Cursor := advance (c.rest.length - rest.length) c

end Cursor

end Posterior.Yaml
