import JsonAutomata.FloatingPoint.Format

/-!
# Rounding — the nearest value of a format

A positive quotient of naturals is rounded to the nearest value of a format, a tie going to the even
significand. Overflow gives an infinity, underflow a subnormal value or zero. Conversion between
formats and the arithmetic of a format are rounded exact results.
-/

namespace JsonAutomata

/-- The quotient rounded to the nearest natural number, a tie to the even one. -/
def roundQuotient (num den : Nat) : Nat :=
  let q := num / den
  let r := num % den
  if 2 * r < den then q
  else if den < 2 * r then q + 1
  else if q % 2 = 0 then q else q + 1

/-- The quotient `num / den`, scaled by the power of two with the exponent `shift`. -/
def scaleByTwo (num den : Nat) (shift : Int) : Nat × Nat :=
  if 0 ≤ shift then (num * Nat.pow 2 shift.toNat, den)
  else (num, den * Nat.pow 2 (-shift).toNat)

def quotientLog2 (num den : Nat) : Int :=
  let estimate : Int := (Nat.log2 num : Int) - Nat.log2 den
  -- The estimate is right, or one too large.
  let (n, d) := scaleByTwo num den (-estimate)
  if d ≤ n then estimate else estimate - 1

namespace BinaryFormat

def round (fmt : BinaryFormat) (negative : Bool) (num den : Nat) : BinaryFloat :=
  if num = 0 then .finite negative 0 fmt.minExponent
  else
    let exponent := max fmt.minExponent (quotientLog2 num den - fmt.fractionBits)
    let (n, d) := scaleByTwo num den (-exponent)
    let significand := roundQuotient n d
    -- Rounding up can fill the next power of two.
    let (significand, exponent) :=
      if significand = Nat.pow 2 fmt.precision then (fmt.fullSignificand, exponent + 1)
      else (significand, exponent)
    if fmt.maxExponent < exponent then .infinite negative
    else .finite negative significand exponent

def roundBinary (fmt : BinaryFormat) (negative : Bool) (significand : Nat) (exponent : Int) :
    BinaryFloat :=
  let (n, d) := scaleByTwo significand 1 exponent
  fmt.round negative n d

/-- The value nearest to `± digits * 10 ^ exponent`. Powers that lie far outside the format are
not computed: `10 ^ n` exceeds `2 ^ n`. -/
def roundDecimal (fmt : BinaryFormat) (negative : Bool) (digits : Nat) (exponent : Int) :
    BinaryFloat :=
  if digits = 0 then .finite negative 0 fmt.minExponent
  else
    -- The value lies between the powers of ten with the exponents `top - 1` and `top`.
    let top : Int := (Nat.toDigits 10 digits).length + exponent
    if fmt.maxExponent + fmt.precision < top then .infinite negative
    else if top < fmt.minExponent then .finite negative 0 fmt.minExponent
    else if 0 ≤ exponent then fmt.round negative (digits * Nat.pow 10 exponent.toNat) 1
    else fmt.round negative digits (Nat.pow 10 (-exponent).toNat)

def convert (fmt : BinaryFormat) : BinaryFloat → BinaryFloat
  | .nan negative => .nan negative
  | .infinite negative => .infinite negative
  | .finite negative significand exponent => fmt.roundBinary negative significand exponent

def represents (fmt source : BinaryFormat) (x : BinaryFloat) : Bool :=
  source.convert (fmt.convert x) = x

end BinaryFormat

end JsonAutomata
