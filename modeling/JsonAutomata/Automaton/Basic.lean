import JsonAutomata.Sorted.Map
import JsonAutomata.Pattern.Term

/-!
# Automata — nondeterministic, with epsilon transitions

An automaton is a graph whose states are numbered, whose transitions consume one character of a
class or nothing, and whose final states report labels. Where several final states are reached at
once, the one with the smallest number is reported, so numbers double as priorities.

`Automaton.epsilonClosure` is the least set that holds the given states and is closed under
transitions that consume nothing.
-/

namespace JsonAutomata

abbrev State := Nat

abbrev StateSet := SortedSet State

def showState (state : State) : String := s!"s{state}"

inductive Matcher where
  | epsilon
  | consuming (cls : CharClass)
  deriving DecidableEq

namespace Matcher

@[inline]
def accepts (c : Char) : Matcher → Bool
  | epsilon => false
  | consuming cls => cls.accepts c

@[inline]
def isEpsilon : Matcher → Bool
  | epsilon => true
  | consuming _ => false

@[inline]
def isOver (cls : CharClass) : Matcher → Bool
  | epsilon => false
  | consuming own => own = cls

def display : Matcher → String
  | epsilon => "ε"
  | consuming cls => cls.name

def class? : Matcher → Option CharClass
  | epsilon => none
  | consuming cls => some cls

end Matcher

structure Transition where
  source : State
  target : State
  matcher : Matcher
  deriving DecidableEq

/-- A nondeterministic finite automaton with epsilon transitions. -/
structure Automaton where
  entry : State
  states : StateSet
  /-- The final states and the label that each one reports. -/
  finals : SortedMap State Label
  alphabet : SortedSet CharClass
  /-- The transitions, in the order in which they were added. -/
  transitions : List Transition
  deriving DecidableEq

namespace Automaton

/-! ## Assembly -/

def ofEntry (entry : State) : Automaton := ⟨entry, .singleton entry, ∅, ∅, []⟩

def addTransition (A : Automaton) (source target : State) (matcher : Matcher) : Automaton :=
  { A with
    states := (A.states.insert source).insert target
    alphabet := match matcher with
      | .epsilon => A.alphabet
      | .consuming cls => A.alphabet.insert cls
    transitions := A.transitions ++ [⟨source, target, matcher⟩] }

/-- Makes `state` final under `label`, in place of an earlier label. -/
def markFinal (A : Automaton) (state : State) (label : Label) : Automaton :=
  { A with
    states := A.states.insert state
    finals := A.finals.insert state label }

/-- Adds all of `B` except that the entry stays. -/
def absorb (A B : Automaton) : Automaton :=
  { A with
    states := A.states ∪ B.states
    finals := A.finals.override B.finals
    alphabet := A.alphabet ∪ B.alphabet
    transitions := A.transitions ++ B.transitions }

/-- The automata of `parts` side by side, with an epsilon transition from `entry` to each. -/
def merge (entry : State) (parts : List Automaton) : Automaton :=
  parts.foldl (fun A part => (A.absorb part).addTransition entry part.entry .epsilon)
    (ofEntry entry)

/-! ## Final states -/

def finalStates (A : Automaton) : StateSet := A.finals.keys

@[inline]
def label? (A : Automaton) (state : State) : Option Label := A.finals.get? state

@[inline]
def isFinal (A : Automaton) (state : State) : Bool := (A.label? state).isSome

/-- The final state of highest priority among `states`. -/
def bestFinal (A : Automaton) (states : StateSet) : Option State := states.find? A.isFinal

def bestLabel (A : Automaton) (states : StateSet) : Option Label :=
  states.toList.findSome? A.label?

/-! ## Steps -/

/-- The states that one transition reaches from `states`, among the transitions to follow. -/
@[inline]
def step (A : Automaton) (follows : Matcher → Bool) (states : StateSet) : StateSet :=
  .ofList ((A.transitions.filter fun t => states.contains t.source && follows t.matcher).map
    Transition.target)

def stepEpsilon (A : Automaton) (states : StateSet) : StateSet := A.step Matcher.isEpsilon states

def stepOn (A : Automaton) (c : Char) (states : StateSet) : StateSet :=
  A.step (Matcher.accepts c) states

def stepOver (A : Automaton) (cls : CharClass) (states : StateSet) : StateSet :=
  A.step (Matcher.isOver cls) states

/-- Adds to `closure` what epsilon transitions reach, one layer of new states at a time. Each layer
but an empty one enters a state that no transition had entered before, so as many rounds as there
are transitions are enough. -/
def closeLayers (A : Automaton) : Nat → StateSet → StateSet → StateSet
  | 0, closure, _ => closure
  | rounds + 1, closure, layer =>
    -- States that were reached before need not be left again.
    let fresh := A.stepEpsilon layer \ closure
    if fresh.isEmpty then closure else A.closeLayers rounds (closure ∪ fresh) fresh

def epsilonClosure (A : Automaton) (states : StateSet) : StateSet :=
  A.closeLayers A.transitions.length states states

/-! ## Runs -/

def start (A : Automaton) : StateSet := A.epsilonClosure (.singleton A.entry)

def advance (A : Automaton) (states : StateSet) (c : Char) : StateSet :=
  A.epsilonClosure (A.stepOn c states)

def reached (A : Automaton) (word : List Char) : StateSet := word.foldl A.advance A.start

def accepts (A : Automaton) (word : List Char) : Bool := (A.bestFinal (A.reached word)).isSome

end Automaton

end JsonAutomata
