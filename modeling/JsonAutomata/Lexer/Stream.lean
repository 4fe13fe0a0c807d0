import JsonAutomata.Lexer.Basic

/-!
# Token streams — tokenizing whole inputs

`TokenStream` pulls one token at a time; `Lexer.scan` runs to the end of the input. Both reset the
lexer first and flush it at the end, except that empty input has no token. A stream ends after its
first error.
-/

namespace JsonAutomata

/-! ## One token at a time -/

structure TokenStream where
  /-- The lexer, which keeps its state when the stream is dropped. -/
  lexer : Lexer
  rest : List Char
  fed : Bool
  finished : Bool

namespace TokenStream

/-- Consumes characters up to the next token or error. -/
def pull (lexer : Lexer) (fed : Bool) : List Char → Option (Except LexError Token) × TokenStream
  | [] =>
    if fed then
      let (item, lexer) := lexer.flush
      (some item, ⟨lexer, [], fed, true⟩)
    else (none, ⟨lexer, [], fed, true⟩)
  | c :: rest =>
    match lexer.feed c with
    | (.ok none, lexer) => pull lexer true rest
    | (.ok (some token), lexer) => (some (.ok token), ⟨lexer, rest, true, false⟩)
    | (.error e, lexer) => (some (.error e), ⟨lexer, rest, true, true⟩)

/-- The next token or error; none when the stream has ended. -/
def next (s : TokenStream) : Option (Except LexError Token) × TokenStream :=
  if s.finished then (none, s) else pull s.lexer s.fed s.rest

def take : Nat → TokenStream → List (Option (Except LexError Token)) × TokenStream
  | 0, s => ([], s)
  | n + 1, s =>
    let (item, s) := s.next
    let (items, s) := take n s
    (item :: items, s)

end TokenStream

namespace Lexer

def stream (lx : Lexer) (input : List Char) : TokenStream := ⟨lx.reset, input, false, false⟩

end Lexer

/-! ## Whole inputs -/

/-- What reading an input to its end, or to its first error, gives. -/
structure Scan where
  tokens : List Token
  failure : Option LexError
  lexer : Lexer

namespace Scan

def cons (token : Token) (s : Scan) : Scan := { s with tokens := token :: s.tokens }

def result (s : Scan) : Except LexError (List Token) :=
  match s.failure with
  | none => .ok s.tokens
  | some e => .error e

end Scan

namespace Lexer

/-- Reads the rest of an input, of which some part was consumed if `fed`. -/
def scanFrom (lx : Lexer) (fed : Bool) : List Char → Scan
  | [] =>
    if fed then
      match lx.flush with
      | (.ok token, lx) => ⟨[token], none, lx⟩
      | (.error e, lx) => ⟨[], some e, lx⟩
    else ⟨[], none, lx⟩
  | c :: rest =>
    match lx.feed c with
    | (.ok none, lx) => lx.scanFrom true rest
    | (.ok (some token), lx) => (lx.scanFrom true rest).cons token
    | (.error e, lx) => ⟨[], some e, lx⟩

def scan (lx : Lexer) (input : List Char) : Scan := lx.reset.scanFrom false input

def tokenize (lx : Lexer) (input : List Char) : Except LexError (List Token) :=
  (lx.scan input).result

end Lexer

end JsonAutomata
