import JsonAutomata.Exchange.Datum
import JsonAutomata.FloatingPoint.Arithmetic

/-!
# Machine numbers — reading a number in fixed space

A reader that keeps 64 bits of the digits takes them in as long as they fit, and from there on only
counts: digits of the integer that do not fit each raise the power of ten by one, and those of the
fraction are dropped. What it has is then scaled by a rounded power of ten, so the result can be one
unit off the nearest value. A number without fraction and exponent that fits stays an integer.
-/

namespace JsonAutomata

namespace MachineNumber

def maxSignificand : Nat := Nat.pow 2 64 - 1

/-- Takes in digits behind the number `n` as long as the result fits, and answers it with the digits
that are left over. -/
def takeIn (n : Nat) : List Char → Nat × List Char
  | [] => (n, [])
  | d :: ds =>
    let next := 10 * n + digitValue d
    if maxSignificand < next then (n, d :: ds) else takeIn next ds

/-- The greatest power of ten that the sixty-four-bit format holds has this exponent. -/
def greatestPower : Nat := 308

def powerOfTen (exponent : Nat) : BinaryMagnitude :=
  (BinaryFormat.double.ofNat? (Nat.pow 10 exponent)).getD ⟨0, 0⟩

def divide (x : BinaryMagnitude) (exponent : Nat) : Option BinaryMagnitude :=
  BinaryFormat.double.div? x (powerOfTen exponent)

/-- The product `significand * 10 ^ exponent` in at most two scalings of the rounded significand,
unless it is too large. Two divisions by the greatest power leave nothing of a significand of
64 bits. -/
def scale (significand : Nat) (exponent : Int) : Option BinaryMagnitude := do
  let x ← BinaryFormat.double.ofNat? significand
  let size := exponent.natAbs
  if significand = 0 then some x
  else if 0 ≤ exponent then
    if size ≤ greatestPower then BinaryFormat.double.mul? x (powerOfTen size) else none
  else if size ≤ greatestPower then divide x size
  else if size ≤ 2 * greatestPower then
    (divide x greatestPower).bind fun y => divide y (size - greatestPower)
  else some ⟨0, BinaryFormat.double.minExponent⟩

def float (negative : Bool) (significand : Nat) (exponent : Int) : Option Datum :=
  (scale significand exponent).map fun x => .float (.finite negative x.significand x.exponent)

/-- An integer: one below zero keeps 64 bits with its sign, and negative zero is no integer. -/
def integer (negative : Bool) (significand : Nat) : Option Datum :=
  if !negative then some (.integer significand)
  else if 0 < significand ∧ significand ≤ Nat.pow 2 63 then some (.integer (-significand))
  else float true significand 0

/-- Exponents from here on are not computed with. -/
def exponentBound : Nat := Nat.pow 2 31

end MachineNumber

open MachineNumber in
def Number.toMachine? (n : Number) : Option Datum := do
  let (negative, magnitude) := splitSign n.lexeme.toList
  let (mantissa, exponentText) := splitFirst (fun c => c = 'e' || c = 'E') magnitude
  let (whole, fractionText) := splitFirst (· = '.') mantissa
  let fraction := fractionText.getD []
  -- Integer digits that did not fit raise the exponent, fraction digits that did fit lower it.
  let (front, raised) := takeIn 0 whole
  let (significand, dropped) := takeIn front fraction
  let exponent : Int := raised.length + dropped.length - fraction.length
  match exponentText with
  | none =>
    if raised = [] ∧ fractionText = none then integer negative significand
    else float negative significand exponent
  | some text =>
    let written ← readInteger? text
    -- Zero stays zero under any exponent, and a large negative one leaves nothing.
    if written.natAbs < exponentBound then float negative significand (exponent + written)
    else if significand ≠ 0 ∧ 0 < written then none
    else float negative 0 0

end JsonAutomata
