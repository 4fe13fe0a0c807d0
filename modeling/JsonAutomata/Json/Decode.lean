import JsonAutomata.Json.Patterns
import JsonAutomata.Json.Reader
import JsonAutomata.Lexer.Log

/-!
# Decoding — from text to a value

A text is cut into tokens, white space is dropped, and a reader takes what is left. An error of the
lexer comes before any other, wherever it lies.
-/

namespace JsonAutomata

/-- A lexer of JSON documents that is used for one document after another. -/
structure Decoder where
  lexer : Lexer

namespace Decoder

def new : Decoder := ⟨jsonLexer⟩

def significant (tokens : List Token) : List Token :=
  tokens.filter fun t => t.kind? ≠ some .space

/-- The value that a scanned document denotes, with at most `limit` containers open at once. -/
def interpret (limit : Option Nat) (scan : Scan) : Except DecodeError Value :=
  match scan.failure with
  | some e => .error (.lex e)
  | none => Reader.read limit (significant scan.tokens)

def decode (d : Decoder) (text : List Char) : Except DecodeError Value × Decoder :=
  let scan := d.lexer.scan text
  (interpret (some maxDepth) scan, ⟨scan.lexer⟩)

def decodeAll (d : Decoder) : List (List Char) → List (Except DecodeError Value) × Decoder
  | [] => ([], d)
  | text :: texts =>
    let (result, d) := d.decode text
    let (results, d) := d.decodeAll texts
    (result :: results, d)

def records (scan : Scan) : List Log.Record :=
  let emitted := scan.tokens.map Log.emitted
  match scan.failure with
  | some _ => emitted
  | none =>
    emitted ++ [⟨.debug, s!"Decoding {(significant scan.tokens).length} significant tokens"⟩]

end Decoder

def decodeWithin (limit : Option Nat) (text : List Char) : Except DecodeError Value :=
  Decoder.interpret limit (jsonLexer.scan text)

def decode (text : List Char) : Except DecodeError Value := decodeWithin (some maxDepth) text

end JsonAutomata
