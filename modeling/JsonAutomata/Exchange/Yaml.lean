import JsonAutomata.Exchange.Datum
import JsonAutomata.Text.Hex

/-!
# YAML — documents in block style

A text is written plainly where it reads back as the same text. It is quoted if it is empty, if it
would read as another kind of scalar, or if one of its characters would mean something. A text of
several lines is set out as a block of lines.

Entries of a mapping inside a mapping are indented by two blanks, items of a sequence inside a
mapping are not, and the first line of an item follows its dash. A key that is too long to share a
line with its value, or takes several lines itself, follows a question mark.
-/

namespace JsonAutomata

namespace Yaml

/-! ## Scalars -/

/-- Floating-point numbers: from `0.00001` on below `10 ^ 16` positional with a point, else with a
power of ten. -/
def floatLayout : FloatLayout :=
  { tie := .toEven, positional := some (-5, 15), keepsPoint := true, plusSign := false }

def float : BinaryFloat → List Char
  | .finite negative significand exponent =>
    floatLayout.write .double negative significand exponent
  | .infinite negative => if negative then "-.inf".toList else ".inf".toList
  | .nan _ => ".nan".toList

def reservedWords : List String :=
  ["", "~", "null", "Null", "NULL", "true", "True", "TRUE", "false", "False", "FALSE",
    ".inf", ".Inf", ".INF", "-.inf", "-.Inf", "-.INF", "+.inf", "+.Inf", "+.INF",
    ".nan", ".NaN", ".NAN"]

def unsigned : List Char → List Char
  | '+' :: rest => rest
  | '-' :: rest => rest
  | cs => cs

/-- Whether a text is an integer with a mark for its base, in the range of 128 bits: from zero on
without sign, below zero with one. -/
def isBased (cs : List Char) : Bool :=
  let greatest := if cs.head? = some '-' then Nat.pow 2 127 else Nat.pow 2 128 - 1
  let valid (base : Nat) (digits : List Char) :=
    digits ≠ [] && (digits.all fun c => (hexValue? c).any (· < base))
      && digits.foldl (fun n c => base * n + (hexValue? c).getD 0) 0 ≤ greatest
  match unsigned cs with
  | '0' :: 'x' :: digits => valid 16 digits
  | '0' :: 'o' :: digits => valid 8 digits
  | '0' :: 'b' :: digits => valid 2 digits
  | _ => false

def readsOtherwise (s : String) : Bool :=
  let cs := s.toList
  let digits := unsigned cs
  reservedWords.contains s || isBased cs
    || digits ≠ [] && digits.all Char.isDigit && digits.head? = some '0'
    || (BinaryFormat.double.read? cs).any BinaryFloat.isFinite

def indicators : List Char := "#,[]\x7b\x7d&*!|>'\"%@`".toList

def isBreak (c : Char) : Bool :=
  c = '\n' || c = '\r' || c = '\x85' || c = '\u2028' || c = '\u2029'

def isBlank (c : Option Char) : Bool := c.all fun c => c = ' ' || isBreak c

/-- Whether some colon or number sign in a text would begin a construct. -/
def hasIndicator : Option Char → List Char → Bool
  | _, [] => false
  | before, c :: rest =>
    c = ':' && isBlank rest.head? || c = '#' && isBlank before || hasIndicator (some c) rest

def isPlain (cs : List Char) : Bool :=
  match cs with
  | [] => false
  | c :: rest =>
    !indicators.contains c && !((c = '-' || c = '?' || c = ':') && isBlank rest.head?)
      && c ≠ ' ' && cs.getLast? ≠ some ' ' && !cs.any isBreak
      && !(["---".toList, "...".toList].contains (cs.take 3))
      && !hasIndicator (some c) rest

def isPrintable (c : Char) : Bool :=
  c = '\n' || ' ' ≤ c && c ≤ '~'
    || '\xa0' ≤ c && c ≠ '\ufeff' && c ≠ '\ufffe' && c ≠ '\uffff'

def doubleEscape (c : Char) : List Char :=
  if c = '"' || c = '\\' then ['\\', c]
  else if c = '\x00' then ['\\', '0']
  else if c = '\x07' then ['\\', 'a']
  else if c = '\x08' then ['\\', 'b']
  else if c = '\t' then ['\\', 't']
  else if c = '\n' then ['\\', 'n']
  else if c = '\x0b' then ['\\', 'v']
  else if c = '\x0c' then ['\\', 'f']
  else if c = '\r' then ['\\', 'r']
  else if c = '\x1b' then ['\\', 'e']
  else if c = '\x85' then ['\\', 'N']
  else if c = '\u2028' then ['\\', 'L']
  else if c = '\u2029' then ['\\', 'P']
  else if isPrintable c then [c]
  else
    let digits := (hex4 c.toNat).map Char.toUpper
    if c.toNat < 256 then '\\' :: 'x' :: digits.drop 2 else '\\' :: 'u' :: digits

inductive Style where
  | plain
  | single
  | double
  | block
  deriving DecidableEq, Repr

def hasPair (p : Char → Char → Bool) (cs : List Char) : Bool :=
  (cs.zip cs.tail).any fun (c, d) => p c d

/-- The way to write a text. Blanks before the end of a line would be lost anywhere but between
double quotation marks, and blanks behind it anywhere but there and in a block. -/
def style (s : String) : Style :=
  let cs := s.toList
  if !cs.all isPrintable || hasPair (fun c d => c = ' ' && isBreak d) cs then .double
  else if cs.contains '\n' then if cs.getLast? = some ' ' then .double else .block
  else if !readsOtherwise s && isPlain cs then .plain
  else if hasPair (fun c d => isBreak c && d = ' ') cs then .double
  else .single

/-- What follows the bar in front of a block: the indentation if the first line does not show it,
and what becomes of the breaks at the end, unless there is exactly one and it is kept. -/
def blockHints (cs : List Char) : List Char :=
  let indentation := if isBlank cs.head? then ['2'] else []
  let ending := match cs.reverse with
    | [c] => if isBreak c then ['+'] else ['-']
    | c :: d :: _ => if !isBreak c then ['-'] else if isBreak d then ['+'] else []
    | [] => ['-']
  indentation ++ ending

def text (s : String) : List Char :=
  let cs := s.toList
  match style s with
  | .plain => cs
  | .single => '\'' :: cs.flatMap (fun c => if c = '\'' then ['\'', '\''] else [c]) ++ ['\'']
  | .double => '"' :: cs.flatMap doubleEscape ++ ['"']
  | .block => '|' :: blockHints cs ++ '\n' :: cs

/-! ## Lines -/

structure Line where
  content : List Char
  ending : Char
  deriving DecidableEq, Repr

namespace Line

/-- The lines of a text, of which the last need not be ended. -/
def ofText : List Char → List Line
  | [] => []
  | c :: rest =>
    if isBreak c then ⟨[], c⟩ :: ofText rest
    else match ofText rest with
      | [] => [⟨[c], '\n'⟩]
      | line :: lines => ⟨c :: line.content, line.ending⟩ :: lines

def behind (lead : List Char) (line : Line) : Line := { line with content := lead ++ line.content }

/-- Indents a line by two blanks, unless nothing is on it. -/
def indent (line : Line) : Line := if line.content = [] then line else line.behind [' ', ' ']

/-- Puts characters in front of the first of some lines, and indents the others. -/
def hang (lead : List Char) : List Line → List Line
  | [] => []
  | line :: lines => line.behind lead :: lines.map indent

def write (line : Line) : List Char := line.content ++ [line.ending]

end Line

/-! ## Documents -/

def dashed (lines : List Line) : List Line := Line.hang ['-', ' '] lines

/-- The greatest number of bytes of a key that shares a line with its value. -/
def maxKey : Nat := 128

def isSimpleKey (key : String) : Bool := key.utf8ByteSize ≤ maxKey && !key.toList.any isBreak

def entry (key : String) (value : Datum) (lines : List Line) : List Line :=
  if isSimpleKey key then
    let lead := text key ++ [':']
    match value with
    | .sequence (_ :: _) => ⟨lead, '\n'⟩ :: lines
    -- Entries are indented below their key, items are not.
    | .mapping (_ :: _) => ⟨lead, '\n'⟩ :: lines.map Line.indent
    | _ => Line.hang (lead ++ [' ']) lines
  else Line.hang ['?', ' '] (Line.ofText (text key)) ++ Line.hang [':', ' '] lines

mutual

def lines : Datum → List Line
  | .null => Line.ofText "null".toList
  | .boolean b => Line.ofText (if b then "true".toList else "false".toList)
  | .integer i => Line.ofText (signedNumeral i)
  | .float x => Line.ofText (float x)
  | .text s => Line.ofText (text s)
  | .sequence [] => Line.ofText "[]".toList
  | .sequence (d :: ds) => dashed (lines d) ++ itemLines ds
  | .mapping [] => Line.ofText "\x7b\x7d".toList
  | .mapping ((k, d) :: es) => entry k d (lines d) ++ entryLines es

def itemLines : List Datum → List Line
  | [] => []
  | d :: ds => dashed (lines d) ++ itemLines ds

def entryLines : List (String × Datum) → List Line
  | [] => []
  | (k, d) :: es => entry k d (lines d) ++ entryLines es

end

/-- A document as text, each line ended. A text of several lines is indented even where it is all
of the document. -/
def write (d : Datum) : String :=
  let all := match d with
    | .text _ => Line.hang [] (lines d)
    | _ => lines d
  String.ofList (all.flatMap Line.write)

end Yaml

end JsonAutomata
