import JsonAutomata.Automaton.Thompson

/-!
# Allocation — the construction with a counter

Thompson's construction once more, by a builder that hands out states one after the other.  Each
operator asks for the states that it needs itself and then compiles its operands, which go on where
the counter stands.  A repetition asks for the stop behind each copy but the last one, whose stop is
the exit of the whole, and keeps a list of its stops for the edges that leave early.
-/

namespace JsonAutomata

namespace Builder

structure Chain where
  automaton : Automaton
  stops : List State
  builder : Builder

/-- Compiles one more copy from the last stop on.  The copy with number `max` leads to `exit`, the
others to fresh states. -/
def Chain.extend (compile : State → State → Builder → Automaton × Builder) (max : Nat)
    (entry exit : State) (chain : Chain) (number : Nat) : Chain :=
  let (stop, b) := if number = max then (exit, chain.builder) else chain.builder.fresh
  let (copy, b) := compile (chain.stops.getLastD entry) stop b
  ⟨chain.automaton.absorb copy, chain.stops ++ [stop], b⟩

/-- Compiles a term between two given states, with the states that the builder hands out on the
way. -/
def assemble : Term → (entry exit : State) → Builder → Automaton × Builder
  | .epsilon, entry, exit, b => ((Automaton.ofEntry entry).addTransition entry exit .epsilon, b)
  | .one cls, entry, exit, b =>
    ((Automaton.ofEntry entry).addTransition entry exit (.consuming cls), b)
  | .seq l r, entry, exit, b =>
    let (midExit, b) := b.fresh
    let (midEntry, b) := b.fresh
    let (left, b) := assemble l entry midExit b
    let (right, b) := assemble r midEntry exit b
    ((((Automaton.ofEntry entry).absorb left).absorb right).addTransition midExit midEntry .epsilon,
      b)
  | .alt l r, entry, exit, b =>
    let (leftEntry, b) := b.fresh
    let (leftExit, b) := b.fresh
    let (rightEntry, b) := b.fresh
    let (rightExit, b) := b.fresh
    let (left, b) := assemble l leftEntry leftExit b
    let (right, b) := assemble r rightEntry rightExit b
    ((((Automaton.ofEntry entry).absorb left).absorb right)
      |>.addTransition entry leftEntry .epsilon
      |>.addTransition entry rightEntry .epsilon
      |>.addTransition leftExit exit .epsilon
      |>.addTransition rightExit exit .epsilon, b)
  | .star t, entry, exit, b =>
    let (innerEntry, b) := b.fresh
    let (innerExit, b) := b.fresh
    let (body, b) := assemble t innerEntry innerExit b
    (((Automaton.ofEntry entry).absorb body)
      |>.addTransition entry innerEntry .epsilon
      |>.addTransition entry exit .epsilon
      |>.addTransition innerExit innerEntry .epsilon
      |>.addTransition innerExit exit .epsilon, b)
  | .times t min max _, entry, exit, b =>
    let chain := (List.range' 1 max).foldl (Chain.extend (assemble t) max entry exit)
      ⟨Automaton.ofEntry entry, [entry], b⟩
    -- The stops after `min` to `max - 1` copies.
    let early := (chain.stops.take max).drop min
    (early.foldl (fun A stop => A.addTransition stop exit .epsilon) chain.automaton, chain.builder)
  | .labeled label t, entry, exit, b =>
    let (A, b) := assemble t entry exit b
    (A.markFinal exit label, b)

end Builder

end JsonAutomata
