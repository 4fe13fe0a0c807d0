/-!
# Decimal numerals

Writing gives a numeral without leading zeros. Reading accepts any non-empty run of ASCII digits,
leading zeros included, and for signed numbers one leading sign. The digits `0` to `9` are the only
ones: digits of other scripts, blanks and separators are refused.
-/

namespace JsonAutomata

def numeral (n : Nat) : List Char := Nat.toDigits 10 n

def signedNumeral : Int → List Char
  | .ofNat n => numeral n
  | .negSucc n => '-' :: numeral (n + 1)

def digitValue (c : Char) : Nat := c.toNat - '0'.toNat

def appendDigits (n : Nat) (digits : List Char) : Nat :=
  digits.foldl (fun n c => 10 * n + digitValue c) n

def digitsValue (digits : List Char) : Nat := appendDigits 0 digits

def readNatural? (cs : List Char) : Option Nat :=
  if cs ≠ [] ∧ cs.all Char.isDigit then some (digitsValue cs) else none

/-- Reads a natural number of at most `bits` bits; one leading plus sign is allowed. -/
def readUnsigned? (bits : Nat) (cs : List Char) : Option Nat :=
  let digits := match cs with
    | '+' :: rest => rest
    | _ => cs
  (readNatural? digits).filter fun n => n < Nat.pow 2 bits

def readInteger? : List Char → Option Int
  | '+' :: rest => (readNatural? rest).map Int.ofNat
  | '-' :: rest => (readNatural? rest).map fun n => -Int.ofNat n
  | cs => (readNatural? cs).map Int.ofNat

def fitsSigned (bits : Nat) (i : Int) : Bool :=
  let bound : Int := Nat.pow 2 (bits - 1)
  i < bound && -bound ≤ i

def readSigned? (bits : Nat) (cs : List Char) : Option Int :=
  (readInteger? cs).filter (fitsSigned bits)

end JsonAutomata
