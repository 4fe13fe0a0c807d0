import JsonAutomata.Json.Reader

/-!
# Descents — reading values by recursion

The grammar of `Reader` once more, by functions that call each other where a value stands inside
another one. Which containers are open is known only to the calls that have not returned yet. So a
counter is handed on: it goes up where a container is opened, and down where it is left, with a value
or with an error.
-/

namespace JsonAutomata

namespace Descent

/-- What a function is called with: the counter of open containers and the tokens that are left. -/
structure Call where
  depth : Nat
  tokens : List Token

/-- What a function leaves behind: its result, the counter, the tokens that are left, and the calls
on the way. -/
structure Return (given : List Token) where
  result : Except DecodeError Value
  depth : Nat
  rest : List Token
  calls : List Call
  progress : rest.length ≤ given.length

namespace Return

variable {given rest : List Token}

def stop (depth : Nat) (given : List Token) (result : Except DecodeError Value) : Return given :=
  ⟨result, depth, given, [], Nat.le_refl _⟩

def after (t : Token) (r : Return rest) : Return (t :: rest) :=
  { r with progress := Nat.le_succ_of_le r.progress }

def called (depth : Nat) (r : Return given) : Return given :=
  { r with calls := ⟨depth, given⟩ :: r.calls }

/-- The innermost container is left, whatever the result. -/
def leave (r : Return given) : Return given := { r with depth := r.depth - 1 }

def andThen (r : Return given)
    (next : Value → Nat → (rest : List Token) → rest.length ≤ given.length → Return rest) :
    Return given :=
  match r.result with
  | .error _ => r
  | .ok v =>
    let s := next v r.depth r.rest r.progress
    { s with calls := r.calls ++ s.calls, progress := Nat.le_trans s.progress r.progress }

end Return

def unexpected (t : Token) (expected : Expectation) : Except DecodeError Value :=
  .error (.unexpectedToken t.content expected t.span.start)

def expect (depth : Nat) (kind : TokenKind) (expected : Expectation) (tokens : List Token)
    (next : Token → (rest : List Token) → rest.length < tokens.length → Return rest) :
    Return tokens :=
  match tokens with
  | [] => .stop depth [] (.error (.unexpectedEnd expected))
  | t :: rest =>
    if t.kind? = some kind then (next t rest (Nat.lt_succ_self _)).after t
    else (Return.stop depth rest (unexpected t expected)).after t

/-- Reads a comma, behind which the container goes on, or its closing bracket. -/
def goOn (depth : Nat) (closing : TokenKind) (expected : Expectation) (whole : Value)
    (tokens : List Token)
    (next : (rest : List Token) → rest.length < tokens.length → Return rest) : Return tokens :=
  match tokens with
  | [] => .stop depth [] (.error (.unexpectedEnd expected))
  | t :: rest =>
    if t.kind? = some .comma then (next rest (Nat.lt_succ_self _)).after t
    else if t.kind? = some closing then (Return.stop depth rest (.ok whole)).after t
    else (Return.stop depth rest (unexpected t expected)).after t

/-- Reads the closing bracket of an empty container, or else what `r` has read. -/
def orEmpty (depth : Nat) (closing : TokenKind) (empty : Value) {tokens : List Token}
    (r : Return tokens) : Return tokens :=
  match tokens with
  | [] => r
  | t :: rest =>
    if t.kind? = some closing then (Return.stop depth rest (.ok empty)).after t else r

/-- Reads a container with the counter one up, unless as many as the limit are open. -/
def nested (limit : Option Nat) (depth : Nat) (t : Token) (rest : List Token)
    (inner : Nat → Return rest) : Return rest :=
  if limit = some depth then .stop depth rest (.error (.depthLimit t.span.start))
  else (inner (depth + 1)).leave

mutual

def value (limit : Option Nat) (depth : Nat) (tokens : List Token) : Return tokens :=
  Return.called depth <|
    match tokens with
    | [] => .stop depth [] (.error (.unexpectedEnd .value))
    | t :: rest =>
      Return.after t <|
        match t.kind? with
        | some .leftBrace => nested limit depth t rest fun depth => object limit depth rest
        | some .leftBracket => nested limit depth t rest fun depth => array limit depth rest
        | some .string => .stop depth rest (t.unescape.map .string)
        | some .number => .stop depth rest (.ok (.number ⟨t.content⟩))
        | some .true => .stop depth rest (.ok (.boolean true))
        | some .false => .stop depth rest (.ok (.boolean false))
        | some .null => .stop depth rest (.ok .null)
        | _ => .stop depth rest (unexpected t .value)
termination_by (tokens.length, 0)

def object (limit : Option Nat) (depth : Nat) (tokens : List Token) : Return tokens :=
  Return.called depth <|
    orEmpty depth .rightBrace (.object []) (members limit depth [] tokens)
termination_by (tokens.length, 2)

def array (limit : Option Nat) (depth : Nat) (tokens : List Token) : Return tokens :=
  Return.called depth <|
    orEmpty depth .rightBracket (.array []) (items limit depth [] tokens)
termination_by (tokens.length, 2)

def members (limit : Option Nat) (depth : Nat) (before : List (String × Value))
    (tokens : List Token) : Return tokens :=
  expect depth .string .stringKey tokens fun t rest _ =>
    match t.unescape with
    | .error e => .stop depth rest (.error e)
    | .ok key =>
      expect depth .colon .colon rest fun _ rest _ =>
        (value limit depth rest).andThen fun v depth rest _ =>
          let before := Entries.insert key v before
          goOn depth .rightBrace .commaOrBrace (.object before) rest fun rest _ =>
            members limit depth before rest
termination_by (tokens.length, 1)

/-- Reads further items of an array, after those in `before`, the latest first. -/
def items (limit : Option Nat) (depth : Nat) (before : List Value) (tokens : List Token) :
    Return tokens :=
  (value limit depth tokens).andThen fun v depth rest _ =>
    let before := v :: before
    goOn depth .rightBracket .commaOrBracket (.array before.reverse) rest fun rest _ =>
      items limit depth before rest
termination_by (tokens.length, 1)

end

def read (limit : Option Nat) (tokens : List Token) : Except DecodeError Value :=
  let r := value limit 0 tokens
  match r.result, r.rest with
  | .error e, _ => .error e
  | .ok v, [] => .ok v
  | .ok _, t :: _ => .error (.trailingTokens t.span.start)

end Descent

end JsonAutomata
