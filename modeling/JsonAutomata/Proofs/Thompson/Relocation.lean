import JsonAutomata.Proofs.Thompson.Construction
import JsonAutomata.Proofs.Thompson.Numbering

/-!
# Relocation — the same term compiled from other counters

Every build of a term is the build of a new builder, shifted by the number of states that its own
builder has handed out before (`Thompson.build_eq_shift`).  So two builds of a term differ by the
difference of these numbers, which may be negative, and by nothing else (`build_relocates`).
-/

namespace JsonAutomata

namespace Automaton

/-- The second automaton is the first one with all numbers of states moved by `d`: entry, states,
labelled final states and transitions correspond one by one, and the classes are the same. -/
structure MovedBy (d : Int) (A B : Automaton) : Prop where
  entry : (B.entry : Int) = A.entry + d
  states : B.states.toList.map (fun q : Nat => (q : Int))
    = A.states.toList.map fun q : Nat => (q : Int) + d
  finals : B.finals.toList.map (fun e => ((e.1 : Int), e.2))
    = A.finals.toList.map fun e => ((e.1 : Int) + d, e.2)
  transitions : B.transitions.map (fun e => ((e.source : Int), (e.target : Int), e.matcher))
    = A.transitions.map fun e => ((e.source : Int) + d, (e.target : Int) + d, e.matcher)
  alphabet : B.alphabet = A.alphabet

theorem movedBy_shift (A : Automaton) (m n : Nat) :
    MovedBy ((n : Int) - m) (A.shift m) (A.shift n) := by
  have hmove : ∀ q : Nat, ((q + n : Nat) : Int) = ((q + m : Nat) : Int) + ((n : Int) - m) := by
    omega
  refine ⟨hmove A.entry, ?_, ?_, ?_, rfl⟩
  · show (A.states.toList.map (· + n)).map _ = (A.states.toList.map (· + m)).map _
    simp only [List.map_map, Function.comp_def, hmove]
  · show (A.finals.toList.map fun e => (e.1 + n, e.2)).map _
      = (A.finals.toList.map fun e => (e.1 + m, e.2)).map _
    simp only [List.map_map, Function.comp_def, hmove]
  · show (A.transitions.map (Transition.shift n)).map _
      = (A.transitions.map (Transition.shift m)).map _
    simp only [List.map_map, Function.comp_def, Transition.shift, hmove]

end Automaton

namespace Builder

/-- Compiled from two counters, a term gives automata that differ only by the difference of the
counters, and as many states are handed out.  One builder that compiles the term twice, whatever is
called in between, gives automata without common states. -/
theorem build_relocates (t : Term) (m n : Nat) :
    Automaton.MovedBy ((n : Int) - m) (Builder.build ⟨m⟩ t).1 (Builder.build ⟨n⟩ t).1 ∧
      ((Builder.build ⟨n⟩ t).2.allocated : Int) - n = (Builder.build ⟨m⟩ t).2.allocated - m ∧
      ∀ (s : Construction) (i : Nat) (between : List Construction.Call),
        Automaton.DisjointStates ((s.builders i).build t).1
          ((((s.call (.build i t)).run between).builders i).build t).1 := by
  refine ⟨?_, ?_, fun s i between => Construction.disjoint_builds s i t t between⟩
  · rw [Thompson.build_eq_shift t ⟨m⟩, Thompson.build_eq_shift t ⟨n⟩]
    exact Automaton.movedBy_shift _ m n
  · rw [allocated_build, allocated_build]
    dsimp only
    omega

end Builder

end JsonAutomata
