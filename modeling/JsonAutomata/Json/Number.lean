import JsonAutomata.FloatingPoint.Reading

/-!
# JSON numbers — kept as they are written

A number keeps its text, so writing it again loses nothing. Two numbers are equal when they denote
the same decimal value, which is decided on a normal form: the digits without zeros on either side,
and the power of ten of the last one. The normal form exists if exponents stay in the range of 64
bits on the way; where it does not exist for both, texts are compared.
-/

namespace JsonAutomata

structure Number where
  lexeme : String
  deriving DecidableEq, Repr, Inhabited

/-- The decimal value `± digits * 10 ^ exponent`. -/
structure NormalForm where
  negative : Bool
  /-- The digits, the first and last of which are not zero; none for zero. -/
  digits : List Char
  /-- The power of ten of the last digit; zero for zero. -/
  exponent : Int
  deriving DecidableEq, Repr

namespace Number

/-! ## The grammar of numbers -/

/-- Whether a text is nothing or an exponent: a mark, an optional sign and digits. -/
def isExponent : List Char → Bool
  | [] => true
  | mark :: rest =>
    let digits := match rest with
      | '+' :: digits => digits
      | '-' :: digits => digits
      | _ => rest
    (mark = 'e' || mark = 'E') && digits ≠ [] && digits.all Char.isDigit

/-- Whether a text is an optional fraction, a point and digits, with an optional exponent. -/
def isFraction : List Char → Bool
  | '.' :: d :: rest => d.isDigit && isExponent (rest.dropWhile Char.isDigit)
  | rest => isExponent rest

def isMagnitude : List Char → Bool
  | '0' :: rest => isFraction rest
  | d :: rest => d.isDigit && isFraction (rest.dropWhile Char.isDigit)
  | [] => false

/-- Whether a text is a JSON number: an optional sign, an integer without leading zeros, an
optional fraction and an optional exponent. -/
def isGrammatical : List Char → Bool
  | '-' :: rest => isMagnitude rest
  | rest => isMagnitude rest

/-! ## Coercions -/

def isInteger (n : Number) : Bool :=
  n.lexeme.toList.all fun c => c ≠ '.' && c ≠ 'e' && c ≠ 'E'

def toInt64? (n : Number) : Option Int := readSigned? 64 n.lexeme.toList

def toDouble? (n : Number) : Option BinaryFloat := BinaryFormat.double.read? n.lexeme.toList

/-! ## Equality by value -/

def splitSign : List Char → Bool × List Char
  | '-' :: rest => (true, rest)
  | rest => (false, rest)

/-- Reads an exponent in the range of 64 bits, after an optional plus sign. -/
def readExponent? : List Char → Option Int
  | '+' :: rest => readSigned? 64 rest
  | rest => readSigned? 64 rest

def inRange? (exponent : Int) : Option Int := if fitsSigned 64 exponent then some exponent else none

def dropZeros (digits : List Char) : List Char := digits.dropWhile (· = '0')

def dropTrailing (digits : List Char) : List Char := (dropZeros digits.reverse).reverse

/-- The normal form of the digits `whole.fraction`, scaled by a power of ten. -/
def normalDigits? (negative : Bool) (whole fraction : List Char) (exponent : Int) :
    Option NormalForm := do
  let digits := dropZeros (whole ++ fraction)
  let trimmed := dropTrailing digits
  -- Every zero has one normal form, whatever its sign and exponent.
  if trimmed = [] then return ⟨false, [], 0⟩
  -- Each fraction digit lowers the exponent, and each dropped zero raises it again.
  let unscaled ← inRange? (exponent - fraction.length)
  let scaled ← inRange? (unscaled + (digits.length - trimmed.length : Nat))
  return ⟨negative, trimmed, scaled⟩

def normalForm? (text : List Char) : Option NormalForm := do
  let (negative, magnitude) := splitSign text
  let (mantissa, exponentText) := splitFirst (fun c => c = 'e' || c = 'E') magnitude
  let exponent ← match exponentText with
    | none => some 0
    | some text => readExponent? text
  let (whole, fractionText) := splitFirst (· = '.') mantissa
  let fraction := fractionText.getD []
  if whole ≠ [] ∧ (whole ++ fraction).all Char.isDigit then
    normalDigits? negative whole fraction exponent
  else none

def normal? (n : Number) : Option NormalForm := normalForm? n.lexeme.toList

/-- Whether two numbers have the same decimal value, or the same text if one has no normal form. -/
def beq (a b : Number) : Bool :=
  match a.normal?, b.normal? with
  | some x, some y => x = y
  | _, _ => a.lexeme = b.lexeme

instance : BEq Number := ⟨beq⟩

end Number

end JsonAutomata
