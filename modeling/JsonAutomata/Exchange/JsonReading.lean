import JsonAutomata.Exchange.MachineNumber
import JsonAutomata.Json.Reader
import JsonAutomata.Text.Utf8

/-!
# Reading JSON text as data

Text outside ASCII may stand in strings as it is, numbers are machine numbers, and at most 127
containers are open at once. A text is cut into tokens without patterns: quotation marks enclose
strings, punctuation stands alone, and any other run of characters has to be a number or one of the
words `true`, `false` and `null`.
-/

namespace JsonAutomata

namespace JsonReading

def maxDepth : Nat := 127

def isBlank (c : Char) : Bool := c = ' ' || c = '\t' || c = '\n' || c = '\r'

def punctuation? : Char → Option TokenKind
  | '\x7b' => some .leftBrace
  | '\x7d' => some .rightBrace
  | '[' => some .leftBracket
  | ']' => some .rightBracket
  | ':' => some .colon
  | ',' => some .comma
  | _ => none

def wordKind? (word : List Char) : Option TokenKind :=
  if word = "true".toList then some .true
  else if word = "false".toList then some .false
  else if word = "null".toList then some .null
  else if Number.isGrammatical word then some .number
  else none

def token (kind : TokenKind) (content : List Char) (offset : Nat) : Token :=
  let content := String.ofList content
  ⟨content, kind.label, ⟨offset, offset + content.utf8ByteSize⟩⟩

/-- What the characters before a place have begun; those of a token are kept latest first. -/
inductive Begun where
  | nothing
  /-- A string, whose last character is a backslash that escapes the next one if `escaped`. -/
  | string (escaped : Bool) (sofar : List Char)
  | word (sofar : List Char)

/-- The tokens of what has been begun, if a word may end at a byte offset. -/
def endWord? (offset : Nat) : Begun → Option (List Token)
  | .nothing => some []
  | .string _ _ => none
  | .word sofar =>
    let content := sofar.reverse
    (wordKind? content).map fun kind => [token kind content (offset - Utf8.byteLength content)]

/-- The tokens that the character at a byte offset completes, and what is begun behind it. -/
def step? (offset : Nat) (c : Char) : Begun → Option (List Token × Begun)
  | .string escaped sofar =>
    -- A string may hold any text but controls.
    if c < ' ' then none
    else if escaped then some ([], .string false (c :: sofar))
    else if c = '\\' then some ([], .string true (c :: sofar))
    else if c = '"' then
      let content := (c :: sofar).reverse
      some ([token .string content (offset + 1 - Utf8.byteLength content)], .nothing)
    else some ([], .string false (c :: sofar))
  | begun =>
    if c = '"' then (endWord? offset begun).map fun ended => (ended, .string false [c])
    else if isBlank c then (endWord? offset begun).map fun ended => (ended, .nothing)
    else match punctuation? c, begun with
      | some kind, _ =>
        (endWord? offset begun).map fun ended => (ended ++ [token kind [c] offset], .nothing)
      | none, .word sofar => some ([], .word (c :: sofar))
      | none, _ => some ([], .word [c])

def tokensFrom? (offset : Nat) (begun : Begun) : List Char → Option (List Token)
  | [] => endWord? offset begun
  | c :: rest => do
    let (ended, begun) ← step? offset c begun
    let more ← tokensFrom? (offset + c.utf8Size) begun rest
    return ended ++ more

def tokens? (text : List Char) : Option (List Token) := tokensFrom? 0 .nothing text

mutual

def toDatum? : Value → Option Datum
  | .null => some .null
  | .boolean b => some (.boolean b)
  | .number n => n.toMachine?
  | .string s => some (.text s)
  | .array items => (itemsToDatum? items).map .sequence
  | .object members => (membersToDatum? members).map .mapping

def itemsToDatum? : List Value → Option (List Datum)
  | [] => some []
  | v :: vs => do return (← toDatum? v) :: (← itemsToDatum? vs)

def membersToDatum? : List (String × Value) → Option (List (String × Datum))
  | [] => some []
  | (k, v) :: ms => do return (k, ← toDatum? v) :: (← membersToDatum? ms)

end

def isInRange (t : Token) : Bool :=
  t.label ≠ TokenKind.number.label || (Number.toMachine? ⟨t.content⟩).isSome

end JsonReading

/-- The document that a JSON text denotes. No number of the text may be too large, even if it
belongs to a member that another one replaces. -/
def Datum.ofJson? (text : List Char) : Option Datum := do
  let tokens ← JsonReading.tokens? text
  guard (tokens.all JsonReading.isInRange)
  let value ← (Reader.read (some JsonReading.maxDepth) tokens).toOption
  JsonReading.toDatum? value

end JsonAutomata
