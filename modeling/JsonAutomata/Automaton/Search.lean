import JsonAutomata.Automaton.Basic

/-!
# Search — what epsilon transitions reach, layer by layer

`Automaton.epsilonClosure` is given as many rounds as there are transitions. `Search` is the loop
without a count: it keeps what was reached and, apart from it, what the last round added, and goes
on as long as that is not empty.
-/

namespace JsonAutomata

/-- The states that epsilon transitions have reached so far. -/
structure Search where
  closure : StateSet
  /-- What the last round has added. -/
  layer : StateSet
  deriving DecidableEq

namespace Search

def ofStates (states : StateSet) : Search := ⟨states, states⟩

def isOver (s : Search) : Bool := s.layer.isEmpty

/-- One round: the states behind the last layer that were not reached before are the next one. -/
def next (A : Automaton) (s : Search) : Search :=
  let fresh := A.stepEpsilon s.layer \ s.closure
  ⟨s.closure ∪ fresh, fresh⟩

/-- The search after a number of rounds, whether it is over before or not. -/
def after (A : Automaton) (s : Search) : Nat → Search
  | 0 => s
  | n + 1 => (s.next A).after A n

end Search

end JsonAutomata
