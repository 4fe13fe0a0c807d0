import JsonAutomata.Proofs.Json.Lexemes
import JsonAutomata.Proofs.Thompson.Derived

/-!
# Texts of the patterns — what tokens of each kind look like

The patterns are written with combinators over sets of characters, the grammar is one of characters.
Compiled by itself, the pattern of a kind accepts exactly the texts that the grammar has for the kind
(`accepts_pattern_iff`).
-/

namespace JsonAutomata

open Grammar

namespace TokenKind

variable {kind : TokenKind} {w : List Char}

/-- What a token of a kind looks like.  A string is a quotation mark, printable ASCII characters and
escapes in any order, and a quotation mark.  A number is an optional sign, an integer, a fraction and
an exponent.  White space is a run of blanks, tabs and line ends that is not empty.  All other tokens
are their own labels. -/
def Lexeme : TokenKind → List Char → Prop
  | string, w => ∃ x, w = '"' :: (x ++ ['"']) ∧ RawBody x
  | number, w => NumberText w
  | space, w => w ≠ [] ∧ Blank w
  | kind, w => w = kind.label.toList

theorem mem_language_term : w ∈ kind.term.language ↔ kind.Lexeme w := by
  cases kind with
  | string => exact mem_language_string
  | number => exact mem_language_number
  | space => exact mem_language_space
  | _ => exact Term.mem_language_literal

theorem isPlain_term (kind : TokenKind) : kind.term.isPlain = Bool.true := by
  cases kind <;> decide

/-- Compiled from any counter, the pattern of a kind accepts the tokens of the kind and nothing
else. -/
theorem accepts_pattern_iff (kind : TokenKind) (b : Builder) (w : List Char) :
    (b.build kind.pattern).1.accepts w = Bool.true ↔ kind.Lexeme w := by
  rw [pattern, Builder.accepts_group (isPlain_term kind), mem_language_term]

end TokenKind

end JsonAutomata
