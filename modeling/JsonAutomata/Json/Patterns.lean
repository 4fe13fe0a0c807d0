import JsonAutomata.Json.TokenKind
import JsonAutomata.Lexer.Stream

/-!
# The JSON patterns

One labelled term for each kind of token. Literals and punctuation match their own labels, a string
holds printable ASCII and escapes between quotation marks, a number is
`-?(0|[1-9][0-9]*)(\.[0-9]+)?([eE][+-]?[0-9]+)?`, and white space is any run of blanks, tabs and
line ends.
-/

namespace JsonAutomata

namespace TokenKind

def unescapedClass : CharClass :=
  (CharClass.range ' ' '~' "[ -~]").without "\"\\".toList "[^\"\\]"

def hexTerm : Term := .oneOf "0123456789abcdefABCDEF".toList "[0-9a-fA-F]"

def escapeTerm : Term :=
  .choice [
    .oneOf "\"\\/bfnrt".toList "[\"\\/bfnrt]",
    .concat [.literal ['u'], hexTerm.exactly 4]]

def stringTerm : Term :=
  .concat [
    .literal ['"'],
    .star (.choice [.one unescapedClass, .concat [.literal ['\\'], escapeTerm]]),
    .literal ['"']]

def integerTerm : Term :=
  .choice [.literal ['0'], .concat [.oneOf "123456789".toList "[1-9]", .star .digits]]

def fractionTerm : Term := .concat [.literal ['.'], .plus .digits]

def exponentTerm : Term :=
  .concat [.oneOf "eE".toList "[eE]", .optional (.oneOf "+-".toList "[+-]"), .plus .digits]

def numberTerm : Term :=
  .concat [.optional (.literal ['-']), integerTerm, .optional fractionTerm, .optional exponentTerm]

def spaceTerm : Term := .plus (.oneOf " \t\r\n".toList "[ \\t\\r\\n]")

def term : TokenKind → Term
  | string => stringTerm
  | number => numberTerm
  | space => spaceTerm
  | kind => .literal kind.label.toList

def pattern (kind : TokenKind) : Term := kind.term.group kind.label

end TokenKind

/-- The patterns of all kinds, in order of precedence. -/
def jsonPatterns : List Term := TokenKind.all.map TokenKind.pattern

def jsonLexer : Lexer := .ofPatterns jsonPatterns

def jsonTokens (text : List Char) : Except LexError (List Token) := jsonLexer.tokenize text

end JsonAutomata
