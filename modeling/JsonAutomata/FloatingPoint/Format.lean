/-!
# Binary floating-point formats — values and their bits

A finite value is a sign, a natural significand and a power of two. A format fixes how many bits
the significand has and how far the exponent ranges. Values decoded from bits, and rounded values,
are in the form in which the exponent is as small as the significand's width allows; zeros have the
least exponent.
-/

namespace JsonAutomata

structure BinaryFormat where
  /-- The number of bits of a full significand, its leading one included. -/
  precision : Nat
  exponentBits : Nat
  deriving DecidableEq, Repr

/-- A floating-point value: no number, an infinity, or `± significand * 2 ^ exponent`. -/
inductive BinaryFloat where
  | nan (negative : Bool)
  | infinite (negative : Bool)
  | finite (negative : Bool) (significand : Nat) (exponent : Int)
  deriving DecidableEq, Repr

namespace BinaryFormat

def half : BinaryFormat := ⟨11, 5⟩

def single : BinaryFormat := ⟨24, 8⟩

def double : BinaryFormat := ⟨53, 11⟩

def fractionBits (fmt : BinaryFormat) : Nat := fmt.precision - 1

def fullSignificand (fmt : BinaryFormat) : Nat := Nat.pow 2 fmt.fractionBits

def minExponent (fmt : BinaryFormat) : Int :=
  2 - Nat.pow 2 (fmt.exponentBits - 1) - fmt.fractionBits

def maxExponent (fmt : BinaryFormat) : Int :=
  Nat.pow 2 (fmt.exponentBits - 1) - 1 - fmt.fractionBits

def specialField (fmt : BinaryFormat) : Nat := Nat.pow 2 fmt.exponentBits - 1

def width (fmt : BinaryFormat) : Nat := fmt.fractionBits + fmt.exponentBits + 1

def ofBits (fmt : BinaryFormat) (bits : Nat) : BinaryFloat :=
  let fraction := bits % fmt.fullSignificand
  let field := bits / fmt.fullSignificand % Nat.pow 2 fmt.exponentBits
  let negative := bits / Nat.pow 2 (fmt.fractionBits + fmt.exponentBits) % 2 = 1
  if field = fmt.specialField then
    if fraction = 0 then .infinite negative else .nan negative
  else if field = 0 then .finite negative fraction fmt.minExponent
  else .finite negative (fmt.fullSignificand + fraction) (fmt.minExponent + (field - 1))

def signBits (fmt : BinaryFormat) (negative : Bool) : Nat :=
  if negative then Nat.pow 2 (fmt.fractionBits + fmt.exponentBits) else 0

/-- The bit pattern of a value of the format; that of a quiet value where there is no number. -/
def toBits (fmt : BinaryFormat) : BinaryFloat → Nat
  | .nan negative =>
    fmt.signBits negative + fmt.specialField * fmt.fullSignificand + fmt.fullSignificand / 2
  | .infinite negative => fmt.signBits negative + fmt.specialField * fmt.fullSignificand
  | .finite negative significand exponent =>
    -- A full significand has its leading one counted into the exponent field.
    fmt.signBits negative + (exponent - fmt.minExponent).toNat * fmt.fullSignificand + significand

end BinaryFormat

namespace BinaryFloat

def isNaN : BinaryFloat → Bool
  | nan _ => true
  | _ => false

def isFinite : BinaryFloat → Bool
  | finite _ _ _ => true
  | _ => false

end BinaryFloat

end JsonAutomata
