import JsonAutomata.Automaton.Basic

/-!
# Simulation — whole texts, as far as they can be read

`Automaton.accepts` asks for the states that the whole of a text leads to.  `Automaton.simulate`
follows the text one character at a time, and gives up where no state is left, so that the characters
behind that place are not looked at.
-/

namespace JsonAutomata

namespace Automaton

/-- Whether `word` leads from a closed set of states to a final state. -/
def acceptsFrom (A : Automaton) (current : StateSet) : List Char → Bool
  | [] => (A.bestFinal current).isSome
  | c :: word =>
    let next := A.advance current c
    if next.isEmpty then false else A.acceptsFrom next word

def simulate (A : Automaton) (word : List Char) : Bool := A.acceptsFrom A.start word

end Automaton

end JsonAutomata
