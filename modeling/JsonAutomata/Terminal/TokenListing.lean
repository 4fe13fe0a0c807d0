import JsonAutomata.Json.Quote
import JsonAutomata.Json.TokenKind
import JsonAutomata.Terminal.Style

/-!
# Token listings — one line for each token

A line holds the span, the label and the quoted characters of a token. Spans are aligned on the
right, in a column that has room for the largest offset twice; labels are aligned on the left in a
column of eight characters, and coloured by the kind of token.
-/

namespace JsonAutomata

namespace Terminal

def spanStyle : Style := .weight .bold

/-- The style of a label; a label that no JSON pattern has stands out. -/
def labelStyle : Option TokenKind → Style
  | some .string => .color .green
  | some .number | some .true | some .false => .color .yellow
  | some .null => .both .dim .red
  | some .space => .weight .dim
  | some _ => .color .cyan
  | none => .color .magenta

def labelWidth : Nat := 8

/-- The width of the column of spans: the end of the last token twice, and the two points. -/
def spanWidth (tokens : List Token) : Nat :=
  let digits := match tokens.getLast? with
    | none => 1
    | some t => (numeral t.span.stop).length
  2 * digits + 2

def spanText (s : Span) : List Char := numeral s.start ++ '.' :: '.' :: numeral s.stop

def tokenLine (painter : Painter) (colors : Bool) (width : Nat) (t : Token) : List Char :=
  painter.paint colors (.right width) spanStyle (spanText t.span) ++ ' ' :: ' '
    :: painter.paint colors (.left labelWidth) (labelStyle t.kind?) t.label.toList
    ++ ' ' :: Quote.quoted t.content.toList

def tokenListing (painter : Painter) (colors : Bool) (tokens : List Token) : List Char :=
  tokens.flatMap fun t => tokenLine painter colors (spanWidth tokens) t ++ ['\n']

end Terminal

end JsonAutomata
