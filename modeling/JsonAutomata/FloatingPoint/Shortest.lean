import JsonAutomata.FloatingPoint.Rounding
import JsonAutomata.Text.Numeral

/-!
# Shortest decimals — the fewest digits that read back

The reals that round to a value form an interval around it, whose ends belong to it if the
significand is even. Of the decimals in the interval, those with the fewest digits are shortest,
and of these the nearest to the value is chosen. Only a tie is left to choose by rule.

For each number of digits it is enough to test the two neighbours of the value on the grid of
decimals with so many digits: if any point of the grid lies in the interval, one of these does.
-/

namespace JsonAutomata

structure ShortDecimal where
  /-- The digits, the last of which is not zero. -/
  digits : Nat
  /-- The power of ten of the last digit. -/
  exponent : Int
  deriving DecidableEq, Repr

inductive TieRule where
  | toEven
  | up
  deriving DecidableEq, Repr

/-- The reals that round to a value, in common units: `low` and `high` bound them, `value` is the
value itself, and `denominator` units make one. -/
structure RoundingInterval where
  low : Nat
  value : Nat
  high : Nat
  denominator : Nat
  /-- Whether the bounds round to the value as well. -/
  closed : Bool

namespace RoundingInterval

/-- The interval of the value `significand * 2 ^ exponent`. Below a power of two the values lie
twice as dense as above it. -/
def of (fmt : BinaryFormat) (significand : Nat) (exponent : Int) : RoundingInterval :=
  let below :=
    if significand = fmt.fullSignificand ∧ fmt.minExponent < exponent then 1 else 2
  let (unit, denominator) := scaleByTwo 1 1 (exponent - 2)
  { low := (4 * significand - below) * unit
    value := 4 * significand * unit
    high := (4 * significand + 2) * unit
    denominator
    closed := significand % 2 = 0 }

/-- The number `x` for which the value is `0.d…` times the power of ten with the exponent `x`. -/
def magnitude (r : RoundingInterval) : Int :=
  if r.denominator ≤ r.value then (numeral (r.value / r.denominator)).length
  else 1 - (numeral (r.denominator / r.value)).length

/-- Units and denominator rescaled so that the decimals with the last digit at the power of ten
`exponent` are whole multiples of the denominator. -/
def onGrid (r : RoundingInterval) (exponent : Int) : RoundingInterval :=
  if 0 ≤ exponent then { r with denominator := r.denominator * Nat.pow 10 exponent.toNat }
  else
    let scale := Nat.pow 10 (-exponent).toNat
    { r with low := r.low * scale, value := r.value * scale, high := r.high * scale }

def holds (r : RoundingInterval) (point : Nat) : Bool :=
  let x := point * r.denominator
  if r.closed then r.low ≤ x && x ≤ r.high else r.low < x && x < r.high

def nearest? (tie : TieRule) (r : RoundingInterval) : Option Nat :=
  let below := r.value / r.denominator
  let above := below + 1
  if r.holds below && r.holds above then
    let toBelow := r.value - below * r.denominator
    let toAbove := above * r.denominator - r.value
    if toBelow < toAbove then some below
    else if toAbove < toBelow then some above
    else match tie with
      | .toEven => some (if below % 2 = 0 then below else above)
      | .up => some above
  else if r.holds below then some below
  else if r.holds above then some above
  else none

/-- Tries decimals of `count` digits, then of more, at most `more` times. -/
def search (tie : TieRule) (r : RoundingInterval) (count : Nat) : Nat → ShortDecimal
  | 0 => ⟨r.value / r.denominator, 0⟩
  | more + 1 =>
    let exponent := r.magnitude - count
    match (r.onGrid exponent).nearest? tie with
    | some digits => ⟨digits, exponent⟩
    | none => search tie r (count + 1) more

end RoundingInterval

/-- Moves trailing zeros of the digits into the exponent, at most `count` of them. -/
def dropTrailingZeros (digits : Nat) (exponent : Int) : Nat → ShortDecimal
  | 0 => ⟨digits, exponent⟩
  | count + 1 =>
    if digits % 10 = 0 then dropTrailingZeros (digits / 10) (exponent + 1) count
    else ⟨digits, exponent⟩

namespace BinaryFormat

/-- A number of digits that always tells the values of the format apart. -/
def enoughDigits (fmt : BinaryFormat) : Nat := fmt.precision * 30103 / 100000 + 2

/-- The shortest decimal that rounds to the positive value `significand * 2 ^ exponent`. -/
def shortest (fmt : BinaryFormat) (tie : TieRule) (significand : Nat) (exponent : Int) :
    ShortDecimal :=
  let found := (RoundingInterval.of fmt significand exponent).search tie 1 fmt.enoughDigits
  -- A carry out of the leading digit leaves one trailing zero.
  dropTrailingZeros found.digits found.exponent 1

end BinaryFormat

end JsonAutomata
