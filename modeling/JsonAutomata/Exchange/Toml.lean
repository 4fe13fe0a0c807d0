import JsonAutomata.Exchange.Datum
import JsonAutomata.Text.Hex

/-!
# TOML — documents as tables

The root is a table. In every table the plain entries come first; then each sub-table and each
array of tables follows under a header with its full path. A non-empty sequence of nothing but
mappings is an array of tables. A table that has only sub-tables needs no header of its own.

There is no null: a document that holds one, or that is no mapping, has no text.
-/

namespace JsonAutomata

namespace Toml

inductive Failure where
  | null
  | notTable
  deriving DecidableEq, Repr

def Failure.message : Failure → String
  | null => "unsupported unit type"
  | notTable => "unsupported rust type"

/-! ## Scalars and keys -/

/-- Floating-point numbers: always positional, whole numbers with a point. -/
def floatLayout : FloatLayout :=
  { tie := .up, positional := none, keepsPoint := true, plusSign := false }

def float : BinaryFloat → List Char
  | .finite negative significand exponent =>
    floatLayout.write .double negative significand exponent
  | .infinite negative => if negative then "-inf".toList else "inf".toList
  | .nan _ => "nan".toList

def escape (c : Char) : List Char :=
  if c = '"' then ['\\', '"']
  else if c = '\\' then ['\\', '\\']
  else if c = '\x08' then ['\\', 'b']
  else if c = '\t' then ['\\', 't']
  else if c = '\n' then ['\\', 'n']
  else if c = '\x0c' then ['\\', 'f']
  else if c = '\r' then ['\\', 'r']
  else if c < ' ' || c = '\x7f' then '\\' :: 'u' :: (hex4 c.toNat).map Char.toUpper
  else [c]

/-- Whether a character cannot stand in a text as it is, on one line or on several. -/
def isControl (c : Char) : Bool := c < ' ' && c ≠ '\t' && c ≠ '\n' || c = '\x7f'

inductive Quoting where
  | basic
  | literal
  | longBasic
  | longLiteral
  deriving DecidableEq, Repr

namespace Quoting

def mark : Quoting → List Char
  | basic => ['"']
  | literal => ['\'']
  | longBasic => ['"', '"', '"']
  | longLiteral => ['\'', '\'', '\'']

def holds (row : List Char) : List Char → Bool
  | [] => row.isEmpty
  | c :: rest => row.isPrefixOf (c :: rest) || holds row rest

/-- Whether a text reads well when quoted in this way: there is nothing to be escaped in it but a
tab, and nothing that would end it. -/
def suits (q : Quoting) (cs : List Char) : Bool :=
  !cs.any isControl && !holds q.mark cs && match q with
    | basic => !cs.contains '\\' && !cs.contains '\n'
    | literal => !cs.contains '\n'
    | longBasic => !cs.contains '\\'
    | longLiteral => true

/-- The characters of a text on any number of lines, behind a number of quotation marks. The third
mark of a row is escaped, because it would end the text. -/
def escapeLong (marks : Nat) : List Char → List Char
  | [] => []
  | c :: rest =>
    if c = '\n' then c :: escapeLong 0 rest
    else if c = '"' ∧ marks < 2 then c :: escapeLong (marks + 1) rest
    else escape c ++ escapeLong 0 rest

/-- A text between its marks. One of several lines begins on a line of its own. -/
def write (q : Quoting) (cs : List Char) : List Char :=
  let start := if cs.contains '\n' then ['\n'] else []
  let body := match q with
    | basic => cs.flatMap escape
    | literal => cs
    | longBasic => start ++ escapeLong 0 cs
    | longLiteral => start ++ cs
  q.mark ++ body ++ q.mark

end Quoting

/-- A text between marks: the first way to quote it that suits it, else one with escapes. -/
def text (s : String) : List Char :=
  let cs := s.toList
  let fallback := if cs.contains '\n' then Quoting.longBasic else .basic
  let ways : List Quoting := [.basic, .literal, .longBasic, .longLiteral]
  ((ways.find? (·.suits cs)).getD fallback).write cs

def isBare (c : Char) : Bool := c.isAlphanum || c = '_' || c = '-'

def key (k : String) : List Char :=
  let cs := k.toList
  let ways : List Quoting := [.basic, .literal]
  if cs ≠ [] ∧ cs.all isBare then cs else ((ways.find? (·.suits cs)).getD .basic).write cs

/-! ## Values on one line -/

/-- The texts of the items of an array. In the long form an array of two items or more has a line
for each, four blanks in whatever the array is inside of. -/
def array (long : Bool) (items : List (List Char)) : List Char :=
  if long && 2 ≤ items.length then
    '[' :: items.flatMap (fun item => '\n' :: List.replicate 4 ' ' ++ item ++ [',']) ++ ['\n', ']']
  else '[' :: [',', ' '].intercalate items ++ [']']

def inlineTable (entries : List (List Char)) : List Char :=
  match entries with
  | [] => ['\x7b', '\x7d']
  | _ => '\x7b' :: ' ' :: [',', ' '].intercalate entries ++ [' ', '\x7d']

def assignment (k : String) (value : List Char) : List Char := key k ++ " = ".toList ++ value

mutual

def inline (long : Bool) : Datum → List Char
  | .null => []
  | .boolean b => if b then "true".toList else "false".toList
  | .integer i => signedNumeral i
  | .float x => float x
  | .text s => text s
  | .sequence items => array long (inlineItems long items)
  | .mapping entries => inlineTable (inlineEntries long entries)

def inlineItems (long : Bool) : List Datum → List (List Char)
  | [] => []
  | d :: ds => inline long d :: inlineItems long ds

def inlineEntries (long : Bool) : List (String × Datum) → List (List Char)
  | [] => []
  | (k, d) :: es => assignment k (inline long d) :: inlineEntries long es

end

/-! ## Tables -/

def isMapping : Datum → Bool
  | .mapping _ => true
  | _ => false

/-- Whether a value is written after an equals sign, and not under a header. -/
def isPlain : Datum → Bool
  | .mapping _ => false
  | .sequence items => items.isEmpty || !items.all isMapping
  | _ => true

structure Section where
  /-- The line of the header; none for the root and where none is needed. -/
  header : Option (List Char)
  body : List (List Char)

def plainLines (long : Bool) (entries : List (String × Datum)) : List (List Char) :=
  (entries.filter fun entry => isPlain entry.2).map fun (k, d) => assignment k (inline long d)

/-- The header of a table with a path: single brackets for a sub-table, which needs none if all it
holds is further tables, and double ones for an item of an array of tables. -/
def header (inArray : Bool) (path : List (List Char)) (entries : List (String × Datum)) :
    Option (List Char) :=
  let name := ['.'].intercalate path
  -- The root has no header, and an item of an array always has one.
  if path.isEmpty then none
  else if inArray then some ("[[".toList ++ name ++ "]]".toList)
  else if entries.isEmpty || entries.any (fun entry => isPlain entry.2) then
    some ('[' :: name ++ [']'])
  else none

mutual

/-- The sections of a table: its own, then those of its sub-tables. -/
def tableSections (long inArray : Bool) (path : List (List Char)) : Datum → List Section
  | .mapping entries =>
    ⟨header inArray path entries, plainLines long entries⟩ :: entrySections long path entries
  | _ => []

def entrySections (long : Bool) (path : List (List Char)) : List (String × Datum) → List Section
  | [] => []
  | (k, .mapping entries) :: es =>
    tableSections long false (path ++ [key k]) (.mapping entries) ++ entrySections long path es
  | (k, .sequence items) :: es =>
    (if isPlain (.sequence items) then [] else arraySections long (path ++ [key k]) items)
      ++ entrySections long path es
  | _ :: es => entrySections long path es

def arraySections (long : Bool) (path : List (List Char)) : List Datum → List Section
  | [] => []
  | d :: ds => tableSections long true path d ++ arraySections long path ds

end

/-- The text of sections: a blank line before each header but one at the very beginning. -/
def joinSections : (begun : Bool) → List Section → List Char
  | _, [] => []
  | begun, s :: rest =>
    let head := match s.header with
      | none => []
      | some line => (if begun then ['\n'] else []) ++ line ++ ['\n']
    let body := s.body.flatMap fun line => line ++ ['\n']
    head ++ body ++ joinSections (begun || s.header.isSome || !s.body.isEmpty) rest

mutual

def hasNull : Datum → Bool
  | .null => true
  | .sequence items => itemsHaveNull items
  | .mapping entries => entriesHaveNull entries
  | _ => false

def itemsHaveNull : List Datum → Bool
  | [] => false
  | d :: ds => hasNull d || itemsHaveNull ds

def entriesHaveNull : List (String × Datum) → Bool
  | [] => false
  | (_, d) :: es => hasNull d || entriesHaveNull es

end

def write (long : Bool) (d : Datum) : Except Failure String :=
  if hasNull d then .error .null
  else if !isMapping d then .error .notTable
  else .ok (String.ofList (joinSections false (tableSections long false [] d)))

end Toml

end JsonAutomata
