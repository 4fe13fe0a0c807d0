import JsonAutomata.Lexer.Token

/-!
# Kinds of JSON tokens

A kind is known by the label of its pattern. `TokenKind.all` lists the kinds in the order in which
their patterns take precedence.
-/

namespace JsonAutomata

inductive TokenKind where
  | leftBrace
  | rightBrace
  | leftBracket
  | rightBracket
  | colon
  | comma
  | null
  | true
  | false
  | string
  | number
  | space
  deriving DecidableEq, Repr

namespace TokenKind

/-- Every kind, in order of precedence. -/
def all : List TokenKind :=
  [.true, .false, .null, .string, .number, .space, .comma, .colon, .leftBrace, .rightBrace,
    .leftBracket, .rightBracket]

def label : TokenKind → Label
  | leftBrace => "\x7b"
  | rightBrace => "\x7d"
  | leftBracket => "["
  | rightBracket => "]"
  | colon => ":"
  | comma => ","
  | null => "null"
  | true => "true"
  | false => "false"
  | string => "string"
  | number => "number"
  | space => "space"

def ofLabel? (label : Label) : Option TokenKind := all.find? fun kind => kind.label = label

def isScalar : TokenKind → Bool
  | null | true | false | string | number => Bool.true
  | _ => Bool.false

def priority (kind : TokenKind) : Nat := all.idxOf kind

theorem mem_all (kind : TokenKind) : kind ∈ all := by cases kind <;> decide

@[simp]
theorem ofLabel?_label (kind : TokenKind) : ofLabel? kind.label = some kind := by
  cases kind <;> decide

end TokenKind

/-- The kind of a token, if its label is that of a JSON pattern. -/
def Token.kind? (t : Token) : Option TokenKind := TokenKind.ofLabel? t.label

end JsonAutomata
