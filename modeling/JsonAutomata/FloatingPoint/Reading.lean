import JsonAutomata.FloatingPoint.Rounding
import JsonAutomata.Text.Numeral

/-!
# Reading floating-point text

The accepted texts are an optional sign followed by a decimal (digits, at most one point, and an
optional exponent, with a digit before or after the point) or by one of the words `inf`, `infinity`
and `nan` in any case. A decimal is rounded correctly.
-/

namespace JsonAutomata

structure WrittenDecimal where
  /-- All digits, before and after the point. -/
  digits : Nat
  exponent : Int
  deriving DecidableEq, Repr

/-- Splits a text before the first character that satisfies `p`; that character is dropped. -/
def splitFirst (p : Char → Bool) (cs : List Char) : List Char × Option (List Char) :=
  match cs.span fun c => !p c with
  | (before, []) => (before, none)
  | (before, _ :: after) => (before, some after)

def readDecimal? (cs : List Char) : Option WrittenDecimal := do
  let (mantissa, exponentText) := splitFirst (fun c => c = 'e' || c = 'E') cs
  let exponent ← match exponentText with
    | none => some 0
    | some text => readInteger? text
  let (whole, fractionText) := splitFirst (· = '.') mantissa
  let fraction := fractionText.getD []
  let digits ← readNatural? (whole ++ fraction)
  return ⟨digits, exponent - fraction.length⟩

namespace BinaryFormat

def readMagnitude? (fmt : BinaryFormat) (negative : Bool) (cs : List Char) : Option BinaryFloat :=
  match readDecimal? cs with
  | some d => some (fmt.roundDecimal negative d.digits d.exponent)
  | none =>
    let word := String.ofList (cs.map Char.toLower)
    if word = "inf" ∨ word = "infinity" then some (.infinite negative)
    else if word = "nan" then some (.nan negative)
    else none

def read? (fmt : BinaryFormat) : List Char → Option BinaryFloat
  | '+' :: rest => fmt.readMagnitude? false rest
  | '-' :: rest => fmt.readMagnitude? true rest
  | cs => fmt.readMagnitude? false cs

end BinaryFormat

end JsonAutomata
