import JsonAutomata.Json.Quote
import JsonAutomata.Json.Value

/-!
# Layouts — writing values as JSON text

The compact layout separates items by a comma and a blank. The indented layout puts every item on a
line of its own, two blanks further in than its container; empty containers stay on one line. Keys
are separated from their values by a colon and a blank in both.
-/

namespace JsonAutomata

inductive Layout where
  | compact
  /-- On lines of their own, where lines of the container itself have `width` blanks in front. -/
  | indented (width : Nat)
  deriving DecidableEq, Repr

namespace Layout

def inner : Layout → Layout
  | compact => compact
  | indented width => indented (width + 2)

def newline (width : Nat) : List Char := '\n' :: List.replicate width ' '

def before : Layout → List Char
  | compact => []
  | indented width => newline (width + 2)

def between : Layout → List Char
  | compact => [',', ' ']
  | indented width => ',' :: newline (width + 2)

def after : Layout → List Char
  | compact => []
  | indented width => newline width

def enclose (layout : Layout) (opening closing : Char) (items : List (List Char)) : List Char :=
  match items with
  | [] => [opening, closing]
  | _ =>
    opening :: layout.before ++ layout.between.intercalate items ++ layout.after ++ [closing]

end Layout

namespace Value

mutual

def write (layout : Layout) : Value → List Char
  | .null => "null".toList
  | .boolean b => if b then "true".toList else "false".toList
  | .number n => n.lexeme.toList
  | .string s => Quote.quoted s.toList
  | .array items => layout.enclose '[' ']' (writeItems layout.inner items)
  | .object members => layout.enclose '\x7b' '\x7d' (writeMembers layout.inner members)

def writeItems (layout : Layout) : List Value → List (List Char)
  | [] => []
  | v :: vs => v.write layout :: writeItems layout vs

def writeMembers (layout : Layout) : List (String × Value) → List (List Char)
  | [] => []
  | (k, v) :: ms =>
    (Quote.quoted k.toList ++ ':' :: ' ' :: v.write layout) :: writeMembers layout ms

end

def encode (v : Value) : String := String.ofList (v.write .compact)

def encodePretty (v : Value) : String := String.ofList (v.write (.indented 0))

end Value

end JsonAutomata
