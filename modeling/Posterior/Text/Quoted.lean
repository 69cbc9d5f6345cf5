import Posterior.Text.Class

/-!
Quoted text for messages. A quote, a backslash and the common controls are escaped by a letter;
what has no shape of its own is spelled by its number.
-/

namespace Posterior.Text

def hex (n : Nat) : List Char := Nat.toDigits 16 n

def quotedChar (c : Char) : List Char :=
  if c = '"' then ['\\', '"']
  else if c = '\\' then ['\\', '\\']
  else if c = '\n' then ['\\', 'n']
  else if c = '\r' then ['\\', 'r']
  else if c = '\t' then ['\\', 't']
  else if c = '\x00' then ['\\', '0']
  else if isJoining c || !isPrintable c then ['\\', 'u', '\x7b'] ++ hex c.toNat ++ ['\x7d']
  else [c]

def quoted (s : String) : String :=
  "\"" ++ String.ofList (s.toList.flatMap quotedChar) ++ "\""

/-- The texts with a comma and a space between each two. -/
def commaSeparated (texts : List String) : String := ", ".intercalate texts

end Posterior.Text
