import JsonAutomata.Exchange.Datum
import JsonAutomata.Text.Hex

/-!
# Data as JSON text

Text outside ASCII stands for itself; only what JSON requires is escaped. On one line nothing
separates items but commas and colons; in lines, items are indented by two blanks and empty
containers stay on one line.
-/

namespace JsonAutomata

namespace Datum

def jsonEscape (c : Char) : List Char :=
  if c = '"' then ['\\', '"']
  else if c = '\\' then ['\\', '\\']
  else if c = '\x08' then ['\\', 'b']
  else if c = '\x0c' then ['\\', 'f']
  else if c = '\n' then ['\\', 'n']
  else if c = '\r' then ['\\', 'r']
  else if c = '\t' then ['\\', 't']
  else if c < ' ' then '\\' :: 'u' :: hex4 c.toNat
  else [c]

def jsonQuoted (s : String) : List Char := '"' :: s.toList.flatMap jsonEscape ++ ['"']

/-- The texts of items between brackets, on lines indented by `width` blanks and more, or on one
line. -/
def jsonEnclose (width : Option Nat) (opening closing : Char) (items : List (List Char)) :
    List Char :=
  match items, width with
  | [], _ => [opening, closing]
  | _, none => opening :: [','].intercalate items ++ [closing]
  | _, some n =>
    let line (more : Nat) := '\n' :: List.replicate (n + more) ' '
    opening :: line 2 ++ (',' :: line 2).intercalate items ++ line 0 ++ [closing]

mutual

def writeJson (width : Option Nat) : Datum → List Char
  | .null => "null".toList
  | .boolean b => if b then "true".toList else "false".toList
  | .integer i => signedNumeral i
  | .float x => jsonFloat x
  | .text s => jsonQuoted s
  | .sequence items => jsonEnclose width '[' ']' (writeJsonItems (width.map (· + 2)) items)
  | .mapping entries =>
    jsonEnclose width '\x7b' '\x7d' (writeJsonEntries (width.map (· + 2)) entries)

def writeJsonItems (width : Option Nat) : List Datum → List (List Char)
  | [] => []
  | d :: ds => d.writeJson width :: writeJsonItems width ds

def writeJsonEntries (width : Option Nat) : List (String × Datum) → List (List Char)
  | [] => []
  | (k, d) :: es =>
    let colon := if width.isSome then [':', ' '] else [':']
    (jsonQuoted k ++ colon ++ d.writeJson width) :: writeJsonEntries width es

end

def toJson (d : Datum) : String := String.ofList (d.writeJson none)

def toJsonLines (d : Datum) : String := String.ofList (d.writeJson (some 0))

end Datum

end JsonAutomata
