import JsonAutomata.Json.Value

/-!
# The grammar of documents — which texts denote which values

`Derives n phrase text` says that the text is a phrase of the grammar with at most `n` containers
open at once, and what it denotes:

```text
element   := blank value blank
value     := null | true | false | number | string | array | object
array     := '[' blank ']' | '[' elements ']'
elements  := element | elements ',' element
object    := '{' blank '}' | '{' members '}'
members   := member | members ',' member
member    := blank string blank ':' element
```

The grammar is one of characters.  It knows nothing of tokens or of the order in which a text is
read.
-/

namespace JsonAutomata

namespace Grammar

/-! ## 1. White space and numbers -/

def IsBlank (c : Char) : Prop := c = ' ' ∨ c = '\t' ∨ c = '\r' ∨ c = '\n'

def Blank (w : List Char) : Prop := ∀ c ∈ w, IsBlank c

def IsDigit (c : Char) : Prop := '0' ≤ c ∧ c ≤ '9'

def Digits (w : List Char) : Prop := w ≠ [] ∧ ∀ c ∈ w, IsDigit c

/-- A zero, or digits that do not begin with one. -/
def Whole (w : List Char) : Prop := w = ['0'] ∨ ∃ c ds, w = c :: ds ∧ c ≠ '0' ∧ Digits w

def Fraction (w : List Char) : Prop := w = [] ∨ ∃ ds, w = '.' :: ds ∧ Digits ds

def Exponent (w : List Char) : Prop :=
  w = [] ∨ ∃ mark sign ds, w = mark :: sign ++ ds ∧ (mark = 'e' ∨ mark = 'E') ∧
    (sign = [] ∨ sign = ['+'] ∨ sign = ['-']) ∧ Digits ds

/-- A number: an optional minus sign, an integer, a fraction and an exponent. -/
def NumberText (w : List Char) : Prop :=
  ∃ sign whole fraction exponent, w = sign ++ (whole ++ (fraction ++ exponent)) ∧
    (sign = [] ∨ sign = ['-']) ∧ Whole whole ∧ Fraction fraction ∧ Exponent exponent

/-! ## 2. Strings -/

/-- The character is the hexadecimal digit for `n`, of either case. -/
def HexDigit (c : Char) (n : Nat) : Prop :=
  "0123456789abcdef".toList[n]? = some c ∨ "0123456789ABCDEF".toList[n]? = some c

def HexUnit (w : List Char) (n : Nat) : Prop :=
  ∃ a b c d i j k l, w = [a, b, c, d] ∧ n = 4096 * i + 256 * j + 16 * k + l ∧
    HexDigit a i ∧ HexDigit b j ∧ HexDigit c k ∧ HexDigit d l

/-- The characters that have short escapes, each after the one that stands behind the backslash. -/
def shortEscapes : List (Char × Char) :=
  [('"', '"'), ('\\', '\\'), ('/', '/'), ('b', '\x08'), ('f', '\x0c'), ('n', '\n'), ('r', '\r'),
    ('t', '\t')]

def HighSurrogate (unit : Nat) : Prop := 0xD800 ≤ unit ∧ unit < 0xDC00

def LowSurrogate (unit : Nat) : Prop := 0xDC00 ≤ unit ∧ unit < 0xE000

/-- The character is printable ASCII and stands for itself inside a string. -/
def IsPlain (c : Char) : Prop := (' ' ≤ c ∧ c ≤ '~') ∧ c ≠ '"' ∧ c ≠ '\\'

/-- The text between quotation marks stands for a list of characters. -/
inductive StringBody : List Char → List Char → Prop
  | nil : StringBody [] []
  | plain {c : Char} {x s : List Char} (hc : IsPlain c) (rest : StringBody x s) :
      StringBody (c :: x) (c :: s)
  | short {e c : Char} {x s : List Char} (he : (e, c) ∈ shortEscapes) (rest : StringBody x s) :
      StringBody ('\\' :: e :: x) (c :: s)
  | unit {h x s : List Char} {n : Nat} (hn : HexUnit h n) (hhigh : ¬ HighSurrogate n)
      (hlow : ¬ LowSurrogate n) (rest : StringBody x s) :
      StringBody ('\\' :: 'u' :: (h ++ x)) (Char.ofNat n :: s)
  | pair {h l x s : List Char} {m n : Nat} (hm : HexUnit h m) (hn : HexUnit l n)
      (hhigh : HighSurrogate m) (hlow : LowSurrogate n) (rest : StringBody x s) :
      StringBody ('\\' :: 'u' :: (h ++ '\\' :: 'u' :: (l ++ x)))
        (Char.ofNat (0x10000 + 0x400 * (m - 0xD800) + (n - 0xDC00)) :: s)

def StringText (w : List Char) (s : String) : Prop :=
  ∃ x cs, w = '"' :: (x ++ ['"']) ∧ StringBody x cs ∧ s = String.ofList cs

/-! ## 3. Values -/

/-- The entries of an object, in the order of their keys: for each key the value of the last member
that has it. -/
def Latest (members entries : List (String × Value)) : Prop :=
  Entries.KeysAscend entries ∧ ∀ k v, (k, v) ∈ entries ↔
    ∃ before after, members = before ++ (k, v) :: after ∧ ∀ m ∈ after, m.1 ≠ k

/-- A part of a document, with what it denotes. -/
inductive Phrase where
  | value (v : Value)
  | element (v : Value)
  | elements (vs : List Value)
  | member (k : String) (v : Value)
  | members (ms : List (String × Value))

/-- The text is a phrase with at most `n` containers open at once. -/
inductive Derives : Nat → Phrase → List Char → Prop
  | null {n : Nat} : Derives n (.value .null) "null".toList
  | true {n : Nat} : Derives n (.value (.boolean Bool.true)) "true".toList
  | false {n : Nat} : Derives n (.value (.boolean Bool.false)) "false".toList
  | number {n : Nat} {w : List Char} (hw : NumberText w) :
      Derives n (.value (.number ⟨String.ofList w⟩)) w
  | string {n : Nat} {w : List Char} {s : String} (hw : StringText w s) :
      Derives n (.value (.string s)) w
  | emptyArray {n : Nat} {a : List Char} (ha : Blank a) :
      Derives (n + 1) (.value (.array [])) ('[' :: (a ++ [']']))
  | array {n : Nat} {w : List Char} {vs : List Value} (inner : Derives n (.elements vs) w) :
      Derives (n + 1) (.value (.array vs)) ('[' :: (w ++ [']']))
  | emptyObject {n : Nat} {a : List Char} (ha : Blank a) :
      Derives (n + 1) (.value (.object [])) ('\x7b' :: (a ++ ['\x7d']))
  | object {n : Nat} {w : List Char} {ms entries : List (String × Value)}
      (inner : Derives n (.members ms) w) (hentries : Latest ms entries) :
      Derives (n + 1) (.value (.object entries)) ('\x7b' :: (w ++ ['\x7d']))
  | element {n : Nat} {a w b : List Char} {v : Value} (ha : Blank a)
      (inner : Derives n (.value v) w) (hb : Blank b) : Derives n (.element v) (a ++ (w ++ b))
  | firstElement {n : Nat} {w : List Char} {v : Value} (inner : Derives n (.element v) w) :
      Derives n (.elements [v]) w
  | nextElement {n : Nat} {u w : List Char} {vs : List Value} {v : Value}
      (before : Derives n (.elements vs) u) (inner : Derives n (.element v) w) :
      Derives n (.elements (vs ++ [v])) (u ++ ',' :: w)
  | member {n : Nat} {a x b w : List Char} {k : String} {v : Value} (ha : Blank a)
      (hx : StringText x k) (hb : Blank b) (inner : Derives n (.element v) w) :
      Derives n (.member k v) (a ++ (x ++ (b ++ ':' :: w)))
  | firstMember {n : Nat} {w : List Char} {k : String} {v : Value}
      (inner : Derives n (.member k v) w) : Derives n (.members [(k, v)]) w
  | nextMember {n : Nat} {u w : List Char} {ms : List (String × Value)} {k : String} {v : Value}
      (before : Derives n (.members ms) u) (inner : Derives n (.member k v) w) :
      Derives n (.members (ms ++ [(k, v)])) (u ++ ',' :: w)

end Grammar

end JsonAutomata
