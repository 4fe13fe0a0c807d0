import JsonAutomata.Automaton.Thompson
import JsonAutomata.Lexer.Token

/-!
# Lexers — maximal munch, one character at a time

A lexer keeps the states that the automaton can be in after what has been consumed since the last
token. A token extends as long as the next character can be consumed, and is emitted as soon as it
cannot; that character then begins the next token. The label of a token is that of the final state
of highest priority, which makes earlier patterns win ties.

A failing operation changes nothing: the second component of its answer is the lexer it was given.
-/

namespace JsonAutomata

/-- A lexer in the middle of its input. -/
structure Lexer where
  automaton : Automaton
  /-- The states reached by what is pending; their epsilon closure counts. -/
  frontier : StateSet
  buffer : String
  start : Nat

namespace Lexer

def ofAutomaton (A : Automaton) : Lexer := ⟨A, .singleton A.entry, "", 0⟩

/-- The automaton of patterns in order of priority. A single pattern is compiled as it is; several
hang under a common entry, which is allocated first. -/
def compile : List Term → Automaton
  | [pattern] => (Builder.new.build pattern).1
  | patterns =>
    let (entry, b) := Builder.new.fresh
    Automaton.merge entry (b.buildAll patterns).1

def ofPatterns (patterns : List Term) : Lexer := ofAutomaton (compile patterns)

def pending (lx : Lexer) : String := lx.buffer

def reset (lx : Lexer) : Lexer := ofAutomaton lx.automaton

/-- The error for a character, or the end of input, that no pattern accounts for. -/
def invalid (lx : Lexer) (found : Option Char) : LexError :=
  ⟨found, lx.buffer, lx.start + lx.buffer.utf8ByteSize⟩

def pendingToken (lx : Lexer) (label : Label) : Token :=
  ⟨lx.buffer, label, ⟨lx.start, lx.start + lx.buffer.utf8ByteSize⟩⟩

/-- The lexer after what is pending, in the states `frontier` of a new match. -/
def restart (lx : Lexer) (frontier : StateSet) : Lexer :=
  { lx with frontier, buffer := "", start := lx.start + lx.buffer.utf8ByteSize }

/-- Consumes one character, and answers the token that it ends, if it ends one. -/
def feed (lx : Lexer) (c : Char) : Except LexError (Option Token) × Lexer :=
  let closure := lx.automaton.epsilonClosure lx.frontier
  let next := lx.automaton.stepOn c closure
  -- Nothing can consume the character, so what is pending is as long as it gets.
  if next.isEmpty then
    match lx.automaton.bestLabel closure with
    | none => (.error (lx.invalid (some c)), lx)
    | some label =>
      -- The character begins the next match, even if nothing can consume it there either.
      let after := lx.restart (lx.automaton.advance lx.automaton.start c)
      (.ok (some (lx.pendingToken label)), { after with buffer := after.buffer.push c })
  else
    (.ok none,
      { lx with frontier := lx.automaton.epsilonClosure next, buffer := lx.buffer.push c })

/-- Ends the input, and answers the token of what is pending. Offsets go on from there. -/
def flush (lx : Lexer) : Except LexError Token × Lexer :=
  match lx.automaton.bestLabel (lx.automaton.epsilonClosure lx.frontier) with
  | none => (.error (lx.invalid none), lx)
  | some label => (.ok (lx.pendingToken label), lx.restart (.singleton lx.automaton.entry))

end Lexer

end JsonAutomata
