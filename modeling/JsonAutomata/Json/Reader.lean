import JsonAutomata.Json.TokenKind
import JsonAutomata.Json.Unescape
import JsonAutomata.Json.Value

/-!
# Readers — from tokens to a value

A reader takes one token at a time. Its state is what may come next, together with the containers
that are open around that place; the grammar is

```text
value   := object | array | string | number | true | false | null
object  := '{' (member (',' member)*)? '}'
member  := string ':' value
array   := '[' (value (',' value)*)? ']'
```

The number of open containers is the length of the stack of frames, and a limit on it is a
parameter: without one, documents nest as deeply as they like. Of members with equal keys the last
one stays.
-/

namespace JsonAutomata

/-- A container inside which a value is being read. -/
inductive Frame where
  /-- An array, with the items before the value, the latest first. -/
  | array (items : List Value)
  /-- An object, with the members before the value and the key of the value. -/
  | object (members : List (String × Value)) (key : String)

/-- What may come next, and inside which containers. -/
inductive Reader where
  | value (frames : List Frame)
  | firstItem (outer : List Frame)
  | firstKey (outer : List Frame)
  | nextKey (members : List (String × Value)) (outer : List Frame)
  | colon (members : List (String × Value)) (key : String) (outer : List Frame)
  | afterItem (items : List Value) (outer : List Frame)
  | afterMember (members : List (String × Value)) (outer : List Frame)
  | done (result : Value)

namespace Reader

def start : Reader := .value []

def complete (v : Value) : List Frame → Reader
  | [] => .done v
  | .array items :: outer => .afterItem (v :: items) outer
  | .object members key :: outer => .afterMember (Entries.insert key v members) outer

def unexpected (token : Token) (expected : Expectation) : Except DecodeError Reader :=
  .error (.unexpectedToken token.content expected token.span.start)

/-- Opens a container inside `frames`, unless as many as the limit are open. -/
def openContainer (limit : Option Nat) (frames : List Frame) (token : Token)
    (next : List Frame → Reader) : Except DecodeError Reader :=
  if limit = some frames.length then .error (.depthLimit token.span.start) else .ok (next frames)

def beginValue (limit : Option Nat) (frames : List Frame) (token : Token) :
    Except DecodeError Reader :=
  match token.kind? with
  | some .leftBrace => openContainer limit frames token .firstKey
  | some .leftBracket => openContainer limit frames token .firstItem
  | some .string => token.unescape.map fun s => complete (.string s) frames
  | some .number => .ok (complete (.number ⟨token.content⟩) frames)
  | some .true => .ok (complete (.boolean true) frames)
  | some .false => .ok (complete (.boolean false) frames)
  | some .null => .ok (complete .null frames)
  | _ => unexpected token .value

def readKey (members : List (String × Value)) (outer : List Frame) (token : Token) :
    Except DecodeError Reader :=
  if token.kind? = some .string then token.unescape.map fun key => .colon members key outer
  else unexpected token .stringKey

def step (limit : Option Nat) (reader : Reader) (token : Token) : Except DecodeError Reader :=
  match reader with
  | .value frames => beginValue limit frames token
  | .firstItem outer =>
    -- Only here may an array end without an item before the bracket.
    if token.kind? = some .rightBracket then .ok (complete (.array []) outer)
    else beginValue limit (.array [] :: outer) token
  | .firstKey outer =>
    -- A brace may not follow a comma, so `nextKey` has no such case.
    if token.kind? = some .rightBrace then .ok (complete (.object []) outer)
    else readKey [] outer token
  | .nextKey members outer => readKey members outer token
  | .colon members key outer =>
    if token.kind? = some .colon then .ok (.value (.object members key :: outer))
    else unexpected token .colon
  | .afterItem items outer =>
    match token.kind? with
    | some .comma => .ok (.value (.array items :: outer))
    | some .rightBracket => .ok (complete (.array items.reverse) outer)
    | _ => unexpected token .commaOrBracket
  | .afterMember members outer =>
    match token.kind? with
    | some .comma => .ok (.nextKey members outer)
    | some .rightBrace => .ok (complete (.object members) outer)
    | _ => unexpected token .commaOrBrace
  | .done _ => .error (.trailingTokens token.span.start)

def finish : Reader → Except DecodeError Value
  | .value _ => .error (.unexpectedEnd .value)
  | .firstItem _ => .error (.unexpectedEnd .value)
  | .firstKey _ => .error (.unexpectedEnd .stringKey)
  | .nextKey _ _ => .error (.unexpectedEnd .stringKey)
  | .colon _ _ _ => .error (.unexpectedEnd .colon)
  | .afterItem _ _ => .error (.unexpectedEnd .commaOrBracket)
  | .afterMember _ _ => .error (.unexpectedEnd .commaOrBrace)
  | .done v => .ok v

/-- Reads tokens up to the first error. -/
def run (limit : Option Nat) : Reader → List Token → Except DecodeError Reader
  | reader, [] => .ok reader
  | reader, token :: tokens =>
    match reader.step limit token with
    | .error e => .error e
    | .ok reader => run limit reader tokens

def read (limit : Option Nat) (tokens : List Token) : Except DecodeError Value :=
  match start.run limit tokens with
  | .error e => .error e
  | .ok reader => reader.finish

end Reader

end JsonAutomata
