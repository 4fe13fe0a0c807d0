import JsonAutomata.Lexer.Token

/-!
# Decoding errors

What can be wrong with a text that is no JSON document, and what the reader was looking for.
-/

namespace JsonAutomata

inductive Expectation where
  | value
  | stringKey
  | stringLiteral
  | colon
  | commaOrBracket
  | commaOrBrace
  deriving DecidableEq, Repr

def Expectation.message : Expectation → String
  | value => "a value"
  | stringKey => "a string key"
  | stringLiteral => "a string"
  | colon => "`:`"
  | commaOrBracket => "`,` or `]`"
  | commaOrBrace => "`,` or `\x7d`"

def maxDepth : Nat := 128

inductive DecodeError where
  | lex (cause : LexError)
  | unexpectedToken (found : String) (expected : Expectation) (offset : Nat)
  | unexpectedEnd (expected : Expectation)
  | invalidEscape (sequence : String) (offset : Nat)
  | trailingTokens (offset : Nat)
  | depthLimit (offset : Nat)
  deriving DecidableEq, Repr

namespace DecodeError

def message : DecodeError → String
  | lex cause => cause.message
  | unexpectedToken found expected offset =>
    s!"Unexpected token {showText found} at byte {offset}: expected {expected.message}"
  | unexpectedEnd expected => s!"Unexpected end of input: expected {expected.message}"
  | invalidEscape sequence offset =>
    s!"Invalid escape sequence {showText sequence} at byte {offset}"
  | trailingTokens offset => s!"Unexpected trailing input at byte {offset}"
  | depthLimit offset => s!"Nesting deeper than {maxDepth} levels at byte {offset}"

def source? : DecodeError → Option LexError
  | lex cause => some cause
  | _ => none

end DecodeError

end JsonAutomata
