/-!
# Styles — coloured text on a terminal

Texts are printed in styles, with colours on or off, and some of them are padded with blanks. What
prints them is a `Painter`, which is given from outside. Two facts are all that is known of painters:
with colours off a styled text is formatted like the text itself, padding included
(`Painter.FormatsPlain`), and colours only put control sequences around a text that has none
(`Painter.OnlyWraps`).
-/

namespace JsonAutomata

namespace Terminal

inductive Color where
  | red
  | green
  | yellow
  | magenta
  | cyan
  deriving DecidableEq, Repr

inductive Weight where
  | bold
  | dim
  deriving DecidableEq, Repr

/-- A style changes the brightness, the colour or both. -/
inductive Style where
  | weight (weight : Weight)
  | color (color : Color)
  | both (weight : Weight) (color : Color)
  deriving DecidableEq, Repr

/-! ## Padding -/

inductive Alignment where
  | asIs
  | left (width : Nat)
  | right (width : Nat)
  deriving DecidableEq, Repr

def alignLeft (width : Nat) (text : List Char) : List Char :=
  text ++ List.replicate (width - text.length) ' '

def alignRight (width : Nat) (text : List Char) : List Char :=
  List.replicate (width - text.length) ' ' ++ text

def Alignment.apply : Alignment → List Char → List Char
  | asIs, text => text
  | left width, text => alignLeft width text
  | right width, text => alignRight width text

/-! ## Painters -/

structure Painter where
  paint (colors : Bool) (align : Alignment) (style : Style) (text : List Char) : List Char

def isParameter (c : Char) : Bool := c.isDigit || c = ';'

/-- A run of control sequences that set styles: each is an escape character, a bracket, parameters
and the letter `m`. -/
inductive StyleCodes : List Char → Prop
  | nil : StyleCodes []
  | sequence {parameters rest : List Char} (h : ∀ c ∈ parameters, isParameter c = true)
      (hrest : StyleCodes rest) : StyleCodes ('\x1b' :: '[' :: parameters ++ 'm' :: rest)

def Painter.FormatsPlain (painter : Painter) : Prop :=
  ∀ align style text, painter.paint false align style text = align.apply text

def Painter.OnlyWraps (painter : Painter) : Prop :=
  ∀ style text, '\x1b' ∉ text → ∃ before after, StyleCodes before ∧ StyleCodes after ∧
    painter.paint true .asIs style text = before ++ text ++ after

end Terminal

end JsonAutomata
