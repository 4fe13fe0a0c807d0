import JsonAutomata.FloatingPoint.Layout
import JsonAutomata.Json.Value

/-!
# Conversion into values

`ToValue` gives a type its JSON form. Integers of any width are written in full, and
floating-point numbers by their shortest decimal without an exponent; infinities and what is no
number have no JSON form and become null.
-/

namespace JsonAutomata

universe u

/-- A type with a JSON form. -/
class ToValue (α : Type u) where
  toValue : α → Value

export ToValue (toValue)

structure FloatIn (fmt : BinaryFormat) where
  value : BinaryFloat

namespace Value

/-- Floating-point numbers in documents: always positional, whole numbers without a point. -/
def floatLayout : FloatLayout :=
  { tie := .up, positional := none, keepsPoint := false, plusSign := false }

def ofLexeme (lexeme : List Char) : Value := .number ⟨String.ofList lexeme⟩

def ofInt (i : Int) : Value := ofLexeme (signedNumeral i)

/-- A floating-point number, or null if it has no JSON form. -/
def ofFloat (fmt : BinaryFormat) : BinaryFloat → Value
  | .finite negative significand exponent =>
    ofLexeme (floatLayout.write fmt negative significand exponent)
  | _ => .null

end Value

instance : ToValue Value := ⟨id⟩
instance : ToValue Bool := ⟨.boolean⟩
instance : ToValue Int := ⟨.ofInt⟩
instance : ToValue Nat := ⟨fun n => .ofInt n⟩
instance {fmt : BinaryFormat} : ToValue (FloatIn fmt) := ⟨fun x => .ofFloat fmt x.value⟩
instance : ToValue String := ⟨.string⟩
instance : ToValue Char := ⟨fun c => .string (String.singleton c)⟩

instance {α : Type u} [ToValue α] : ToValue (Option α) where
  toValue
    | none => .null
    | some a => toValue a

instance {α : Type u} [ToValue α] : ToValue (List α) := ⟨fun as => .array (as.map toValue)⟩
instance {α : Type u} [ToValue α] : ToValue (Array α) := ⟨fun as => toValue as.toList⟩

instance {α : Type u} [ToValue α] : ToValue (SortedMap String α) where
  toValue m := .ofMembers (m.toList.map fun (k, a) => (k, toValue a))

/-- A list of entries in any order is the object of these members; of equal keys the last stays. -/
def Value.ofEntries {α : Type u} [ToValue α] (entries : List (String × α)) : Value :=
  .ofMembers (entries.map fun (k, a) => (k, toValue a))

end JsonAutomata
