import JsonAutomata.Terminal.Style

/-!
# The painter of the program

A styled text stands between a control sequence that opens the style and one that resets it. A text
may hold resets of its own; the style is opened again behind each of them. Padding counts the
characters between the control sequences, resets of the text included.
-/

namespace JsonAutomata

namespace Terminal

def Color.parameter : Color → List Char
  | red => ['3', '1']
  | green => ['3', '2']
  | yellow => ['3', '3']
  | magenta => ['3', '5']
  | cyan => ['3', '6']

def Weight.parameter : Weight → List Char
  | bold => ['1']
  | dim => ['2']

namespace Style

/-- The parameters of a style, brightness first. -/
def parameters : Style → List Char
  | weight w => w.parameter
  | color c => c.parameter
  | both w c => w.parameter ++ ';' :: c.parameter

def opening (s : Style) : List Char := '\x1b' :: '[' :: s.parameters ++ ['m']

def reset : List Char := ['\x1b', '[', '0', 'm']

/-- A text with `again` behind each reset in it. -/
def reopened (again : List Char) : List Char → List Char
  | '\x1b' :: '[' :: '0' :: 'm' :: rest => reset ++ again ++ reopened again rest
  | c :: rest => c :: reopened again rest
  | [] => []

end Style

def Painter.ansi : Painter where
  paint colors align style text :=
    if colors then style.opening ++ align.apply (Style.reopened style.opening text) ++ Style.reset
    else align.apply text

end Terminal

end JsonAutomata
