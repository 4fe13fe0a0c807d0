import JsonAutomata.Json.Quote
import JsonAutomata.Json.Value
import JsonAutomata.Terminal.Style

/-!
# Coloured values — documents on a terminal

Scalars and keys are painted by their kind, brackets and separators are not. A document is written
on one line, or with a line for each item, where `indent` is the number of blanks in front of the
line that the value begins on. The document ends with a line end.
-/

namespace JsonAutomata

namespace Terminal

def nullStyle : Style := .both .dim .red

def booleanStyle : Style := .both .bold .yellow

def numberStyle : Style := .color .yellow

def stringStyle : Style := .color .green

def keyStyle : Style := .color .cyan

def lineBreak (pretty : Bool) (indent : Nat) : List Char :=
  if pretty then '\n' :: List.replicate indent ' ' else []

/-- What separates an item from the one before it, which the first item does not have. -/
def separator (pretty isFirst : Bool) : List Char :=
  if isFirst then [] else if pretty then [','] else [',', ' ']

mutual

def writeColored (painter : Painter) (colors pretty : Bool) (indent : Nat) : Value → List Char
  | .null => painter.paint colors .asIs nullStyle "null".toList
  | .boolean b =>
    painter.paint colors .asIs booleanStyle (if b then "true".toList else "false".toList)
  | .number n => painter.paint colors .asIs numberStyle n.lexeme.toList
  | .string s => painter.paint colors .asIs stringStyle (Quote.quoted s.toList)
  -- An empty container stays on its line.
  | .array items =>
    '[' :: coloredItems painter colors pretty (indent + 2) true items
      ++ (if items.isEmpty then [] else lineBreak pretty indent) ++ [']']
  | .object members =>
    '\x7b' :: coloredMembers painter colors pretty (indent + 2) true members
      ++ (if members.isEmpty then [] else lineBreak pretty indent) ++ ['\x7d']

def coloredItems (painter : Painter) (colors pretty : Bool) (indent : Nat) (isFirst : Bool) :
    List Value → List Char
  | [] => []
  | v :: vs =>
    separator pretty isFirst ++ lineBreak pretty indent
      ++ writeColored painter colors pretty indent v
      ++ coloredItems painter colors pretty indent false vs

def coloredMembers (painter : Painter) (colors pretty : Bool) (indent : Nat) (isFirst : Bool) :
    List (String × Value) → List Char
  | [] => []
  | (k, v) :: ms =>
    separator pretty isFirst ++ lineBreak pretty indent
      ++ painter.paint colors .asIs keyStyle (Quote.quoted k.toList) ++ ':' :: ' '
        :: writeColored painter colors pretty indent v
      ++ coloredMembers painter colors pretty indent false ms

end

def coloredValue (painter : Painter) (colors pretty : Bool) (v : Value) : List Char :=
  writeColored painter colors pretty 0 v ++ ['\n']

end Terminal

end JsonAutomata
