import JsonAutomata.Automaton.Search
import JsonAutomata.Proofs.Automaton.Reachability

/-!
# Closure — the search ends, and what it finds

Each round of the search but the last one reaches a state that no transition had reached before, so
the search is over after at most one round more than there are transitions, on cycles too.  What it
has found then is `Automaton.epsilonClosure` (`Search.exists_overAfter`).  The laws of a closure
operator follow from what that means on paths.
-/

namespace JsonAutomata

variable {A : Automaton} {S T : StateSet}

/-! ## 1. Rounds -/

theorem Automaton.EpsilonClosed.fresh_isEmpty {closure layer : StateSet}
    (h : A.EpsilonClosed closure) (hlayer : ∀ p ∈ layer, p ∈ closure) : (A.stepEpsilon layer \ closure).isEmpty = true := by
  apply SortedSet.isEmpty_iff.2
  intro q hq
  obtain ⟨⟨p, hp, edge⟩, hnew⟩ := Automaton.mem_fresh.1 hq
  exact hnew (h p q edge (hlayer p hp))

namespace Search

theorem closeLayers_of_fresh_isEmpty {rounds : Nat} {closure layer : StateSet}
    (h : (A.stepEpsilon layer \ closure).isEmpty = true) :
    A.closeLayers rounds closure layer = closure := by
  cases rounds with
  | zero => rfl
  | succ rounds => rw [Automaton.closeLayers, if_pos h]

theorem next_closure_of_fresh_isEmpty {s : Search}
    (h : (A.stepEpsilon s.layer \ s.closure).isEmpty = true) : (s.next A).closure = s.closure := by
  apply SortedSet.ext_mem
  intro q
  rw [next, SortedSet.mem_union]
  exact or_iff_left (SortedSet.isEmpty_iff.1 h q)

theorem fresh_isEmpty_of_isOver {s : Search} (h : s.isOver = true) :
    (A.stepEpsilon s.layer \ s.closure).isEmpty = true := by
  apply SortedSet.isEmpty_iff.2
  intro q hq
  obtain ⟨⟨p, hp, -⟩, -⟩ := Automaton.mem_fresh.1 hq
  exact SortedSet.isEmpty_iff.1 h p hp

def OverAfter (A : Automaton) (s : Search) (n : Nat) : Prop :=
  (s.after A n).isOver = true ∧ ∀ m < n, ¬ (s.after A m).isOver = true

theorem overAfter_zero {s : Search} (h : s.isOver = true) : s.OverAfter A 0 :=
  ⟨h, fun m hm => absurd hm (Nat.not_lt_zero m)⟩

theorem OverAfter.succ {s : Search} {n : Nat} (hs : ¬ s.isOver = true)
    (h : (s.next A).OverAfter A n) : s.OverAfter A (n + 1) := by
  refine ⟨h.1, fun m hm => ?_⟩
  cases m with
  | zero => exact hs
  | succ m => exact h.2 m (Nat.lt_of_succ_lt_succ hm)

/-- A search with no fresh states is over at once or after one round, which adds nothing. -/
theorem exists_overAfter_of_fresh_isEmpty {s : Search} {rounds : Nat}
    (hfresh : (A.stepEpsilon s.layer \ s.closure).isEmpty = true) :
    ∃ n ≤ rounds + 1, s.OverAfter A n ∧
      (s.after A n).closure = A.closeLayers rounds s.closure s.layer := by
  rw [closeLayers_of_fresh_isEmpty hfresh]
  by_cases hover : s.isOver = true
  · exact ⟨0, Nat.zero_le _, overAfter_zero hover, rfl⟩
  · have hnext : (s.next A).OverAfter A 0 := overAfter_zero hfresh
    exact ⟨1, Nat.le_add_left 1 rounds, hnext.succ hover, next_closure_of_fresh_isEmpty hfresh⟩

/-- With a round for each transition that enters a state outside, the search is over at the latest
one round later, and has found what the counted rounds find. -/
theorem exists_overAfter {s : Search} {rounds : Nat} (hlayer : ∀ p ∈ s.layer, p ∈ s.closure)
    (hrounds : A.undiscovered s.closure ≤ rounds) :
    ∃ n ≤ rounds + 1, s.OverAfter A n ∧
      (s.after A n).closure = A.closeLayers rounds s.closure s.layer := by
  induction rounds generalizing s with
  | zero =>
    -- Every epsilon transition enters the closure, so no round adds a state.
    have hclosed := Automaton.epsilonClosed_of_undiscovered (Nat.le_zero.1 hrounds)
    exact exists_overAfter_of_fresh_isEmpty (hclosed.fresh_isEmpty hlayer)
  | succ rounds ih =>
    by_cases hfresh : (A.stepEpsilon s.layer \ s.closure).isEmpty = true
    · exact exists_overAfter_of_fresh_isEmpty hfresh
    · have hless := Automaton.undiscovered_next_lt hfresh
      have hnext : ∀ p ∈ (s.next A).layer, p ∈ (s.next A).closure :=
        fun p hp => SortedSet.mem_union.2 (.inr hp)
      obtain ⟨n, hn, hover, hclosure⟩ := ih hnext
        (Nat.le_of_lt_succ (Nat.lt_of_lt_of_le hless hrounds))
      have hs : ¬ s.isOver = true := fun h => hfresh (fresh_isEmpty_of_isOver h)
      refine ⟨n + 1, Nat.succ_le_succ hn, hover.succ hs, ?_⟩
      rw [Automaton.closeLayers, if_neg hfresh]
      exact hclosure

end Search

/-! ## 2. The laws of the closure -/

namespace Automaton

theorem subset_epsilonClosure (A : Automaton) (S : StateSet) : ∀ q ∈ S, q ∈ A.epsilonClosure S :=
  fun q hq => mem_epsilonClosure.2 ⟨q, hq, .refl q⟩

theorem epsilonClosure_mono (h : ∀ q ∈ S, q ∈ T) :
    ∀ q ∈ A.epsilonClosure S, q ∈ A.epsilonClosure T := by
  intro q hq
  obtain ⟨p, hp, path⟩ := mem_epsilonClosure.1 hq
  exact mem_epsilonClosure.2 ⟨p, h p hp, path⟩

theorem epsilonClosure_union (A : Automaton) (S T : StateSet) :
    A.epsilonClosure (S ∪ T) = A.epsilonClosure S ∪ A.epsilonClosure T := by
  apply SortedSet.ext_mem
  intro q
  simp only [mem_epsilonClosure, SortedSet.mem_union, or_and_right, exists_or]

/-- From any states, those that the automaton lacks included, the search is over after finitely many
rounds, and has found exactly what epsilon transitions reach. -/
theorem epsilonClosure_exact (A : Automaton) :
    (∀ S, ∃ n ≤ A.transitions.length + 1, (Search.ofStates S).OverAfter A n ∧
      ((Search.ofStates S).after A n).closure = A.epsilonClosure S) ∧
    (∀ S q, q ∈ A.epsilonClosure S ↔ ∃ p ∈ S, A.EpsilonPath p q) ∧
    (∀ S, ∀ q ∈ S, q ∈ A.epsilonClosure S) ∧
    (∀ S, A.epsilonClosure (A.epsilonClosure S) = A.epsilonClosure S) ∧
    (∀ S T, (∀ q ∈ S, q ∈ T) → ∀ q ∈ A.epsilonClosure S, q ∈ A.epsilonClosure T) ∧
    ∀ S T, A.epsilonClosure (S ∪ T) = A.epsilonClosure S ∪ A.epsilonClosure T := by
  refine ⟨fun S => ?_, fun S q => mem_epsilonClosure, A.subset_epsilonClosure,
    fun S => epsilonClosure_idem, fun S T => epsilonClosure_mono, A.epsilonClosure_union⟩
  have hlayer : ∀ p ∈ (Search.ofStates S).layer, p ∈ (Search.ofStates S).closure := fun _ hp => hp
  exact Search.exists_overAfter hlayer List.countP_le_length

/-- On a cycle of two states with a loop, from one of them and a state that does not exist. -/
theorem epsilonClosure_exact_cycle :
    let cycle : Automaton := (((Automaton.ofEntry 0).addTransition 0 1 .epsilon).addTransition 1 0
      .epsilon).addTransition 1 1 .epsilon
    (∀ q ∈ SortedSet.ofList [1, 7], q ∈ SortedSet.ofList [1, 2, 7]) ∧
      (∀ q ∈ cycle.epsilonClosure (.ofList [1, 7]), q ∈ cycle.epsilonClosure (.ofList [1, 2, 7])) ∧
      cycle.epsilonClosure (.ofList [1, 7]) = .ofList [0, 1, 7] := by
  intro cycle
  have hsub : ∀ q ∈ SortedSet.ofList [1, 7], q ∈ SortedSet.ofList [1, 2, 7] := by
    intro q hq
    rw [SortedSet.mem_ofList] at hq ⊢
    revert q
    decide
  exact ⟨hsub, (epsilonClosure_exact cycle).2.2.2.2.1 _ _ hsub, by decide⟩

end Automaton

end JsonAutomata
