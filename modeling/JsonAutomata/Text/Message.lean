import JsonAutomata.Text.Unshown

/-!
# Quoting for messages — characters and texts as diagnostics show them

A message shows a piece of input between quotation marks. The mark itself, the backslash and the
common controls have short escapes, unshown characters are spelt by number, and everything else
stands for itself.
-/

namespace JsonAutomata

def numberedEscape (c : Char) : List Char :=
  ['\\', 'u', '\x7b'] ++ Nat.toDigits 16 c.toNat ++ ['\x7d']

/-- A character inside a message, where `mark` is the quotation mark around it. -/
def messageEscape (mark c : Char) : List Char :=
  if c = mark ∨ c = '\\' then ['\\', c]
  else if c = '\x00' then ['\\', '0']
  else if c = '\t' then ['\\', 't']
  else if c = '\n' then ['\\', 'n']
  else if c = '\r' then ['\\', 'r']
  else if isUnshown c then numberedEscape c
  else [c]

def showCharacter (c : Char) : String :=
  String.ofList ('\'' :: messageEscape '\'' c ++ ['\''])

def showText (s : String) : String :=
  String.ofList ('"' :: s.toList.flatMap (messageEscape '"') ++ ['"'])

end JsonAutomata
