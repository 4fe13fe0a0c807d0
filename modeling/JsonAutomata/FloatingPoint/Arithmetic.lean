import JsonAutomata.FloatingPoint.Rounding

/-!
# Arithmetic — products and quotients of a format

Each operation gives the value nearest to the exact result. Operands are magnitudes: finite values
whose sign does not count.
-/

namespace JsonAutomata

/-- A finite magnitude `significand * 2 ^ exponent`. -/
structure BinaryMagnitude where
  significand : Nat
  exponent : Int
  deriving DecidableEq, Repr

namespace BinaryFloat

def magnitude? : BinaryFloat → Option BinaryMagnitude
  | finite _ significand exponent => some ⟨significand, exponent⟩
  | _ => none

end BinaryFloat

namespace BinaryFormat

/-- The magnitude of the format nearest to a natural number, unless it overflows. -/
def ofNat? (fmt : BinaryFormat) (n : Nat) : Option BinaryMagnitude :=
  (fmt.round false n 1).magnitude?

def mul? (fmt : BinaryFormat) (a b : BinaryMagnitude) : Option BinaryMagnitude :=
  (fmt.roundBinary false (a.significand * b.significand) (a.exponent + b.exponent)).magnitude?

def div? (fmt : BinaryFormat) (a b : BinaryMagnitude) : Option BinaryMagnitude :=
  let (n, d) := scaleByTwo a.significand b.significand (a.exponent - b.exponent)
  (fmt.round false n d).magnitude?

end BinaryFormat

end JsonAutomata
