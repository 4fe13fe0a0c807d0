import JsonAutomata.Automaton.Basic
import JsonAutomata.Text.Message

/-!
# Listings — automata as text

One line per count, class and transition, in the automaton's own order.
-/

namespace JsonAutomata

namespace Automaton

def listing (A : Automaton) : List String :=
  let finals := A.finals.toList.map fun (state, label) => showText s!"{showState state} ({label})"
  [s!"NFA States: {A.states.size}",
    s!"Start State: {showState A.entry}",
    "Accepting States: [" ++ ", ".intercalate finals ++ "]",
    s!"Alphabet ({A.alphabet.size} classes):"]
  ++ A.alphabet.toList.mapIdx (fun i cls => s!"\t{i}: {cls.name}")
  ++ ["Transitions:"]
  ++ A.transitions.map fun t =>
    s!"\t{showState t.source} --{t.matcher.display}--> {showState t.target}"

def display (A : Automaton) : String := String.join (A.listing.map (· ++ "\n"))

end Automaton

end JsonAutomata
