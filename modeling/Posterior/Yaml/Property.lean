import Posterior.Text.Digits
import Posterior.Yaml.Cursor

/-!
What can be said of a node besides its content: the name that it is anchored under and its tag. Also
the directives in front of a document, which say how tags are written.
-/

namespace Posterior.Yaml

/-- The name after an anchor's or a reference's mark. -/
def readName (cs : List Char) : Option (String × List Char) :=
  let (name, rest) := cs.span isNameChar
  let ends := ['?', ':', ',', ']', '\x7d', '%', '@', '\x60']
  let ended := endsWord rest || rest.head?.any ends.contains
  if name.isEmpty || !ended then none else some (String.ofList name, rest)

/-- The bytes of a tag or of a part of it. They need not be encoded text. -/
abbrev TagBytes := List UInt8

def TagBytes.ofChars (cs : List Char) : TagBytes := cs.map fun c => c.toNat.toUInt8

/-- A tag as written: a handle that stands for an opening, and the rest of it. -/
structure Tag where
  handle : String
  suffix : TagBytes
  deriving DecidableEq, Inhabited

def isTagChar (c : Char) : Bool :=
  let marks := [';', '/', '?', ':', '@', '&', '=', '+', '$', '.', '%', '!', '~', '*', '\x27', '(',
    ')']
  isNameChar c || marks.contains c

/-- How many bytes a character takes that starts with this one. -/
def encodedLength (byte : Nat) : Nat :=
  if byte < 0x80 then 1
  else if byte / 0x20 == 6 then 2
  else if byte / 0x10 == 14 then 3
  else if byte / 8 == 30 then 4
  else 0

/-- A byte spelled by a percent sign and two digits. -/
def readByte : List Char → Option (Nat × List Char)
  | '%' :: a :: b :: cs => do return ((← Text.hexDigit? a) * 16 + (← Text.hexDigit? b), cs)
  | _ => none

/-- The bytes that continue a character. -/
def readContinuation : Nat → List Char → Option (TagBytes × List Char)
  | 0, cs => some ([], cs)
  | n + 1, cs => do
    let (byte, cs) ← readByte cs
    if byte / 0x40 != 2 then none
    let (bytes, cs) ← readContinuation n cs
    return (byte.toUInt8 :: bytes, cs)

/-- A character spelled by its bytes. -/
def readEncoded (cs : List Char) : Option (TagBytes × List Char) := do
  let (byte, cs) ← readByte cs
  match encodedLength byte with
  | 0 => none
  | n + 1 => do
    let (bytes, cs) ← readContinuation n cs
    return (byte.toUInt8 :: bytes, cs)

/-- The bytes of a tag; those in brackets of its own may hold commas and brackets. -/
def readTagBytes (bracketed : Bool) : Nat → List Char → Option (TagBytes × List Char)
  | 0, cs => some ([], cs)
  | _, [] => some ([], [])
  | fuel + 1, c :: cs =>
    if isTagChar c || (bracketed && [',', '[', ']'].contains c) then do
      let (bytes, cs) ← if c == '%' then readEncoded (c :: cs) else some (.ofChars [c], cs)
      let (more, rest) ← readTagBytes bracketed fuel cs
      return (bytes ++ more, rest)
    else some ([], c :: cs)

def readTagText (bracketed : Bool) (cs : List Char) : Option (TagBytes × List Char) :=
  readTagBytes bracketed (cs.length + 1) cs

/-- A tag ends before a zero among its bytes. -/
def upToZero (bytes : TagBytes) : TagBytes := bytes.takeWhile (· != 0)

/-- A mark, a name and perhaps the mark again. -/
def readHandle (cs : List Char) : Option (String × List Char) :=
  match cs with
  | '!' :: cs =>
    let (name, rest) := cs.span isNameChar
    match rest with
    | '!' :: rest => some ("!" ++ String.ofList name ++ "!", rest)
    | _ => some ("!" ++ String.ofList name, rest)
  | _ => none

def isNamedHandle (handle : String) : Bool := handle.length > 1 && handle.endsWith "!"

/-- A tag: in full between angle brackets, with a handle, or local. A lone mark is a local tag
too. -/
def readTag (inFlow : Bool) (cs : List Char) : Option (Tag × List Char) := do
  let (tag, rest) ← match cs with
    | '!' :: '<' :: cs => do
      let (text, rest) ← readTagText true cs
      match rest with
      | '>' :: rest => if text.isEmpty then none else pure (⟨"", upToZero text⟩, rest)
      | _ => none
    | cs => do
      let (handle, rest) ← readHandle cs
      let (text, rest) ← readTagText false rest
      if isNamedHandle handle then
        if text.isEmpty then none else pure (⟨handle, upToZero text⟩, rest)
      else
        let suffix := upToZero (.ofChars (handle.toList.drop 1) ++ text)
        pure (if suffix.isEmpty then ⟨"", .ofChars ['!']⟩ else ⟨"!", suffix⟩, rest)
  if endsWord rest || (inFlow && rest.head? == some ',') then return (tag, rest)
  none

/-- A line that says how the document after it is to be read. -/
inductive Directive where
  | version (major minor : Nat)
  /-- The opening that a handle stands for. -/
  | handle (handle : String) (opening : TagBytes)
  deriving DecidableEq, Inhabited

def readVersionPart (cs : List Char) : Option (Nat × List Char) :=
  match Text.readDigits cs with
  | (ds, rest) => if ds.isEmpty || 9 < ds.length then none else some (Text.digitsValue 10 ds, rest)

/-- A directive after its mark, with its line. -/
def readDirective (cs : List Char) : Option (Directive × List Char) := do
  let (name, rest) := cs.span isNameChar
  if name.isEmpty || !endsWord rest then none
  let rest := rest.dropWhile isBlank
  let (directive, rest) ← match String.ofList name with
    | "YAML" => do
      let (major, rest) ← readVersionPart rest
      match rest with
      | '.' :: rest => do
        let (minor, rest) ← readVersionPart rest
        pure (Directive.version major minor, rest)
      | _ => none
    | "TAG" => do
      let (handle, rest) ← readHandle rest
      if handle != "!" && !isNamedHandle handle then none
      if !rest.head?.any isBlank then none
      let (opening, rest) ← readTagText true (rest.dropWhile isBlank)
      if opening.isEmpty || !endsWord rest then none
      pure (Directive.handle handle (upToZero opening), rest)
    | _ => none
  let rest := rest.dropWhile isBlank
  let rest := if rest.head? == some '#' then restOfLine rest else rest
  if !rest.isEmpty && !rest.head?.any isBreak then none
  return (directive, afterBreak rest)

end Posterior.Yaml
