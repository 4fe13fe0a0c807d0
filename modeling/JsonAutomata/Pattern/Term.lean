import JsonAutomata.Pattern.CharClass
import JsonAutomata.Text.Numeral

/-!
# Terms — patterns as an algebra

A term is built from single characters by sequence, choice and repetition. Any part of a term can
carry a label, which makes the part a unit that a lexer reports. The other pattern operators are
abbreviations of these.

## What a term is displayed as

Choice binds loosest and repetition tightest; parentheses stand where the reading would change
otherwise, and around every repeated part that is no single class. The empty pattern is displayed
as nothing.
-/

namespace JsonAutomata

abbrev Label := String

inductive Term where
  | epsilon
  | one (cls : CharClass)
  | seq (first second : Term)
  | alt (left right : Term)
  | star (inner : Term)
  | times (inner : Term) (min max : Nat) (ordered : min < max)
  /-- Matches like `inner`, and is reported under `label`. -/
  | labeled (label : Label) (inner : Term)
  deriving DecidableEq

namespace Term

instance : Inhabited Term := ⟨epsilon⟩

/-! ## Labels -/

/-- The term with its outermost label taken off. -/
def unlabeled : Term → Term
  | labeled _ t => t
  | t => t

def label? : Term → Option Label
  | labeled l _ => some l
  | _ => none

def isGrouped (t : Term) : Bool := t.label?.isSome

/-- The term under the label `label`, in place of an earlier outermost one. -/
def group (label : Label) (t : Term) : Term := labeled label t.unlabeled

/-! ## Derived operators -/

def oneOf (chars : List Char) (name : String) : Term := one (.ofChars chars name)

def digits : Term := one .digits

def letters : Term := one .letters

def any : Term := one .any

/-- All terms in order; the empty pattern for no term. -/
def concat : List Term → Term
  | [] => epsilon
  | [t] => t
  | t :: ts => seq t (concat ts)

/-- Any of the terms; a pattern that never matches for no term. -/
def choice : List Term → Term
  | [] => oneOf [] "[]"
  | [t] => t
  | t :: ts => alt t (choice ts)

def plus (t : Term) : Term := seq t (star t)

def optional (t : Term) : Term := alt t epsilon

def exactly (t : Term) (n : Nat) : Term := concat (List.replicate n t)

def literal (s : List Char) : Term := concat (s.map fun c => one (.single c))

structure RangeError where
  min : Nat
  max : Nat
  deriving DecidableEq, Repr

def RangeError.message (e : RangeError) : String :=
  s!"Invalid repetition range \x7b{e.min},{e.max}\x7d"

def between (t : Term) (min max : Nat) : Except RangeError Term :=
  if ordered : min < max then .ok (times t min max ordered)
  else if min = max then .ok (t.exactly min)
  else .error ⟨min, max⟩

/-! ## Display -/

/-- How tightly the outermost operator binds. -/
def precedence : Term → Nat
  | alt _ _ => 0
  | seq _ _ => 1
  | labeled _ t => t.precedence
  | _ => 2

/-- Whether the term is a single class, labels aside. -/
def isOne : Term → Bool
  | one _ => true
  | labeled _ t => t.isOne
  | _ => false

def parenthesized (needed : Bool) (text : List Char) : List Char :=
  if needed then '(' :: text ++ [')'] else text

def display : Term → List Char
  | epsilon => []
  | one cls => cls.name.toList
  | seq l r =>
    parenthesized (l.precedence < 1) l.display ++ parenthesized (r.precedence < 1) r.display
  | alt l r => l.display ++ '|' :: r.display
  | star t => parenthesized (!t.isOne) t.display ++ ['*']
  | times t min max _ =>
    parenthesized (!t.isOne) t.display
      ++ '\x7b' :: numeral min ++ ',' :: numeral max ++ ['\x7d']
  | labeled _ t => t.display

instance : ToString Term := ⟨fun t => String.ofList t.display⟩

end Term

end JsonAutomata
