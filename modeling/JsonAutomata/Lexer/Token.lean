import JsonAutomata.Pattern.Term
import JsonAutomata.Text.Message

/-!
# Tokens — labelled runs of input

A token is a run of characters that one pattern matched, with its place in the input.
-/

namespace JsonAutomata

/-- A range of byte offsets, without its end. -/
structure Span where
  start : Nat
  stop : Nat
  deriving DecidableEq, Repr

namespace Span

def display (s : Span) : String := s!"{s.start}..{s.stop}"

def shift (n : Nat) (s : Span) : Span := ⟨s.start + n, s.stop + n⟩

end Span

structure Token where
  content : String
  label : Label
  span : Span
  deriving DecidableEq, Repr

namespace Token

def display (t : Token) : String := s!"{t.label}({showText t.content})"

end Token

/-- The failure of a lexer: no pattern accounts for the input. -/
structure LexError where
  /-- The character that cannot be consumed; none at the end of input. -/
  found : Option Char
  pending : String
  /-- The byte offset of the character, or of the end of input. -/
  offset : Nat
  deriving DecidableEq, Repr

namespace LexError

def message (e : LexError) : String :=
  match e.found with
  | some c =>
    let after := if e.pending.isEmpty then "" else s!" after {showText e.pending}"
    s!"Invalid token: unexpected {showCharacter c} at byte {e.offset}{after}"
  | none =>
    s!"Invalid token: {showText e.pending} is incomplete at end of input (byte {e.offset})"

end LexError

end JsonAutomata
