import JsonAutomata.FloatingPoint.Shortest

/-!
# Layouts of floating-point text

Every writer of the library gives a finite value its shortest decimal. What differs is where the
point stands: a `FloatLayout` says which magnitudes are written positionally and how the others are.
-/

namespace JsonAutomata

structure FloatLayout where
  tie : TieRule
  /-- The powers of ten of the leading digit, from first to last, that are written positionally;
  all of them if there is no range. -/
  positional : Option (Int × Int)
  /-- Whether a whole number written positionally keeps a point and a zero. -/
  keepsPoint : Bool
  /-- Whether an exponent that is not negative has a plus sign. -/
  plusSign : Bool

namespace FloatLayout

/-- Writes digits with the point after `before` of them; zeros fill the gap on either side. -/
def placePoint (keepsPoint : Bool) (digits : List Char) (before : Int) : List Char :=
  let count : Int := digits.length
  if before ≤ 0 then '0' :: '.' :: List.replicate (-before).toNat '0' ++ digits
  else if before < count then digits.take before.toNat ++ '.' :: digits.drop before.toNat
  else
    let whole := digits ++ List.replicate (before - count).toNat '0'
    if keepsPoint then whole ++ ['.', '0'] else whole

def scientific (plusSign : Bool) (digits : List Char) (exponent : Int) : List Char :=
  let mantissa := match digits with
    | d :: more@(_ :: _) => d :: '.' :: more
    | _ => digits
  let plus := if plusSign && 0 ≤ exponent then ['+'] else []
  mantissa ++ 'e' :: plus ++ signedNumeral exponent

def writeDecimal (layout : FloatLayout) (d : ShortDecimal) : List Char :=
  let digits := numeral d.digits
  let before := digits.length + d.exponent
  let leading := before - 1
  let isPositional := match layout.positional with
    | none => true
    | some (first, last) => first ≤ leading && leading ≤ last
  if isPositional then placePoint layout.keepsPoint digits before
  else scientific layout.plusSign digits leading

def write (layout : FloatLayout) (fmt : BinaryFormat) (negative : Bool) (significand : Nat)
    (exponent : Int) : List Char :=
  let magnitude :=
    if significand = 0 then if layout.keepsPoint then ['0', '.', '0'] else ['0']
    else layout.writeDecimal (fmt.shortest layout.tie significand exponent)
  if negative then '-' :: magnitude else magnitude

end FloatLayout

end JsonAutomata
