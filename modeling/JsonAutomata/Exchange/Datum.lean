import JsonAutomata.Json.Value
import JsonAutomata.FloatingPoint.Layout

/-!
# Data — documents for other formats

Formats other than JSON tell integers from floating-point numbers, and store both in a fixed
number of bits. A `Datum` is a document on these terms. A JSON number becomes an integer if it is
written as one in the range of 64 bits, else the nearest floating-point number; a text that is no
number at all stays a text.
-/

namespace JsonAutomata

/-- A document whose numbers are machine numbers. The entries of a mapping are in order. -/
inductive Datum where
  | null
  | boolean (value : Bool)
  | integer (value : Int)
  | float (value : BinaryFloat)
  | text (value : String)
  | sequence (items : List Datum)
  | mapping (entries : List (String × Datum))
  deriving Inhabited

def Number.toDatum (n : Number) : Datum :=
  match n.toInt64? with
  | some i => .integer i
  | none =>
    match n.toDouble? with
    | some x => .float x
    | none => .text n.lexeme

namespace Value

mutual

def toDatum : Value → Datum
  | .null => .null
  | .boolean b => .boolean b
  | .number n => n.toDatum
  | .string s => .text s
  | .array items => .sequence (toDatumItems items)
  | .object members => .mapping (toDatumMembers members)

def toDatumItems : List Value → List Datum
  | [] => []
  | v :: vs => v.toDatum :: toDatumItems vs

def toDatumMembers : List (String × Value) → List (String × Datum)
  | [] => []
  | (k, v) :: ms => (k, v.toDatum) :: toDatumMembers ms

end

end Value

/-- Floating-point numbers in JSON: from `0.00001` on below `10 ^ 16` positional with a point, else
with a signed power of ten. -/
def jsonFloatLayout : FloatLayout :=
  { tie := .toEven, positional := some (-5, 15), keepsPoint := true, plusSign := true }

/-- A finite floating-point number as JSON text; null for others. -/
def jsonFloat : BinaryFloat → List Char
  | .finite negative significand exponent =>
    jsonFloatLayout.write .double negative significand exponent
  | _ => "null".toList

namespace Datum

mutual

def toValue : Datum → Value
  | .null => .null
  | .boolean b => .boolean b
  | .integer i => .number ⟨String.ofList (signedNumeral i)⟩
  | .float x => .number ⟨String.ofList (jsonFloat x)⟩
  | .text s => .string s
  | .sequence items => .array (toValueItems items)
  | .mapping entries => .ofMembers (toValueEntries entries)

def toValueItems : List Datum → List Value
  | [] => []
  | d :: ds => d.toValue :: toValueItems ds

def toValueEntries : List (String × Datum) → List (String × Value)
  | [] => []
  | (k, d) :: es => (k, d.toValue) :: toValueEntries es

end

end Datum

end JsonAutomata
