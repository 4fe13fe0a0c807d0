import JsonAutomata.Lexer.Stream

/-!
# Log records — what compiling and reading report

Records are computed from patterns, automata and tokens, so that the operations themselves stay
free of effects.
-/

namespace JsonAutomata

namespace Log

inductive Level where
  | warn
  | debug
  | trace
  deriving DecidableEq, Repr

/-- Whether records of the level are shown: warnings as usual, the others if more is asked for. -/
def Level.isShown (verbosity : Int) : Level → Bool
  | warn => 0 ≤ verbosity
  | debug => 2 ≤ verbosity
  | trace => 3 ≤ verbosity

structure Record where
  level : Level
  text : String
  deriving DecidableEq, Repr

/-- A warning for each pattern that has no label of its own, then the size of the automaton. -/
def compiled (patterns : List Term) (A : Automaton) : List Record :=
  let unlabelled := patterns.filter fun p => !p.isGrouped
  unlabelled.map (fun p =>
    ⟨.warn, s!"Pattern `{p}` is not grouped and can never produce a token"⟩)
  ++ [⟨.debug, s!"Compiled lexer for {patterns.length} patterns: {A.states.size} states, " ++
      s!"{A.transitions.length} transitions, {A.alphabet.size} classes"⟩]

def emitted (token : Token) : Record :=
  ⟨.trace, s!"Emitted {token.display} at {token.span.display}"⟩

end Log

end JsonAutomata
