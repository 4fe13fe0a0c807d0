import JsonAutomata.Automaton.Basic
import JsonAutomata.Proofs.Sorted.Lookup

/-!
# Assembly — edges and labels of composed automata

What the operations that put automata together do to the two parts that decide about texts: the
list of transitions, and the labels of the final states.  Of several final states that are reached
at once, the one with the smallest number reports its label (`bestLabel_eq_some_iff`).
-/

namespace JsonAutomata

namespace Automaton

variable {A B : Automaton}

/-! ## 1. Transitions -/

@[simp]
theorem transitions_ofEntry (entry : State) : (ofEntry entry).transitions = [] := rfl

@[simp]
theorem transitions_addTransition (s t : State) (m : Matcher) :
    (A.addTransition s t m).transitions = A.transitions ++ [⟨s, t, m⟩] := rfl

@[simp]
theorem transitions_markFinal (s : State) (label : Label) :
    (A.markFinal s label).transitions = A.transitions := rfl

@[simp]
theorem transitions_absorb : (A.absorb B).transitions = A.transitions ++ B.transitions := rfl

theorem transitions_foldl_absorb {α : Type} (part : α → Automaton) (as : List α) :
    (as.foldl (fun A a => A.absorb (part a)) A).transitions
      = A.transitions ++ as.flatMap fun a => (part a).transitions := by
  induction as generalizing A with
  | nil => simp
  | cons a as ih => rw [List.foldl_cons, ih, transitions_absorb, List.flatMap_cons,
      List.append_assoc]

theorem transitions_foldl_addTransition {α : Type} (source : α → State) (target : State)
    (as : List α) :
    (as.foldl (fun A a => A.addTransition (source a) target .epsilon) A).transitions
      = A.transitions ++ as.map fun a => ⟨source a, target, .epsilon⟩ := by
  induction as generalizing A with
  | nil => simp
  | cons a as ih => rw [List.foldl_cons, ih, transitions_addTransition, List.map_cons,
      List.append_assoc, List.singleton_append]

/-- Merging keeps the transitions of the parts and leads from the new entry to their entries. -/
theorem transitions_merge (entry : State) (parts : List Automaton) :
    (merge entry parts).transitions
      = parts.flatMap fun part => part.transitions ++ [⟨entry, part.entry, .epsilon⟩] := by
  have hfold : ∀ A : Automaton,
      (parts.foldl (fun A part => (A.absorb part).addTransition entry part.entry .epsilon)
        A).transitions
      = A.transitions
        ++ parts.flatMap fun part => part.transitions ++ [⟨entry, part.entry, .epsilon⟩] := by
    induction parts with
    | nil => simp
    | cons part parts ih =>
      intro A
      rw [List.foldl_cons, ih, transitions_addTransition, transitions_absorb, List.flatMap_cons]
      simp only [List.append_assoc]
  exact (hfold (ofEntry entry)).trans (List.nil_append _)

@[simp]
theorem entry_merge (entry : State) (parts : List Automaton) :
    (merge entry parts).entry = entry := by
  have hfold : ∀ A : Automaton,
      (parts.foldl (fun A part => (A.absorb part).addTransition entry part.entry .epsilon)
        A).entry = A.entry := by
    induction parts with
    | nil => exact fun _ => rfl
    | cons part parts ih => exact fun A => ih _
  exact hfold (ofEntry entry)

/-! ## 2. Labels -/

@[simp]
theorem label?_ofEntry (entry q : State) : (ofEntry entry).label? q = none := rfl

@[simp]
theorem label?_addTransition (s t q : State) (m : Matcher) :
    (A.addTransition s t m).label? q = A.label? q := rfl

theorem label?_markFinal (s q : State) (label : Label) :
    (A.markFinal s label).label? q = if q = s then some label else A.label? q :=
  A.finals.get?_insert s q label

@[simp]
theorem label?_absorb (q : State) : (A.absorb B).label? q = (B.label? q).or (A.label? q) :=
  A.finals.get?_override B.finals q

theorem label?_foldl_addTransition {α : Type} (source : α → State) (target q : State)
    (as : List α) :
    (as.foldl (fun A a => A.addTransition (source a) target .epsilon) A).label? q = A.label? q := by
  induction as generalizing A with
  | nil => rfl
  | cons a as ih => rw [List.foldl_cons, ih, label?_addTransition]

/-- Of several parts that label a state, the one absorbed last decides. -/
theorem label?_foldl_absorb {α : Type} (part : α → Automaton) (q : State) (as : List α) :
    (as.foldl (fun A a => A.absorb (part a)) A).label? q
      = (as.reverse.findSome? fun a => (part a).label? q).or (A.label? q) := by
  induction as generalizing A with
  | nil => rfl
  | cons a as ih =>
    rw [List.foldl_cons, ih, label?_absorb, List.reverse_cons, List.findSome?_append,
      Option.or_assoc]
    simp only [List.findSome?_cons, List.findSome?_nil]
    cases hq : (part a).label? q with
    | none => simp
    | some label => simp

/-- Where no final state is shared, the labels of merged automata are those of the parts. -/
theorem label?_merge (entry q : State) (parts : List Automaton) :
    (merge entry parts).label? q = parts.reverse.findSome? fun part => part.label? q := by
  have hfold : ∀ A : Automaton,
      (parts.foldl (fun A part => (A.absorb part).addTransition entry part.entry .epsilon)
        A).label? q = (parts.foldl (fun A part => A.absorb part) A).label? q := by
    have hsame : ∀ A B : Automaton, A.label? q = B.label? q →
        (parts.foldl (fun A part => (A.absorb part).addTransition entry part.entry .epsilon)
          A).label? q = (parts.foldl (fun A part => A.absorb part) B).label? q := by
      induction parts with
      | nil => exact fun _ _ h => h
      | cons part parts ih =>
        intro A B h
        refine ih _ _ ?_
        rw [label?_addTransition, label?_absorb, label?_absorb, h]
    exact fun A => hsame A A rfl
  rw [merge, hfold, label?_foldl_absorb fun part => part, label?_ofEntry, Option.or_none]

/-! ## 3. The label of a set of states -/

/-- The label of a set is that of its smallest final state. -/
theorem bestLabel_eq_some_iff {S : StateSet} {label : Label} :
    A.bestLabel S = some label ↔
      ∃ q ∈ S, A.label? q = some label ∧ ∀ p ∈ S, p < q → A.label? p = none := by
  rw [bestLabel, List.findSome?_eq_some_iff]
  have hasc := S.ascending
  constructor
  · rintro ⟨before, q, after, heq, hq, hnone⟩
    refine ⟨q, ?_, hq, fun p hp hpq => ?_⟩
    · rw [← SortedSet.mem_toList, heq]
      simp
    · rw [heq, List.pairwise_append, List.pairwise_cons] at hasc
      rw [← SortedSet.mem_toList, heq, List.mem_append, List.mem_cons] at hp
      rcases hp with hp | rfl | hp
      · exact hnone p hp
      · exact absurd hpq (Nat.lt_irrefl p)
      · have hqp : q < p := Nat.compare_eq_lt.1 (hasc.2.1.1 p hp)
        exact absurd hpq (Nat.lt_asymm hqp)
  · rintro ⟨q, hq, hlabel, hnone⟩
    obtain ⟨before, after, heq⟩ := List.append_of_mem (SortedSet.mem_toList.2 hq)
    refine ⟨before, q, after, heq, hlabel, fun p hp => hnone p ?_ ?_⟩
    · rw [← SortedSet.mem_toList, heq]
      simp [hp]
    · rw [heq, List.pairwise_append] at hasc
      exact Nat.compare_eq_lt.1 (hasc.2.2 p hp q (by simp))

/-- The label that is reported is that of the final state of highest priority. -/
theorem bestLabel_eq_bind (S : StateSet) : A.bestLabel S = (A.bestFinal S).bind A.label? := by
  show S.toList.findSome? A.label? = (S.toList.find? A.isFinal).bind A.label?
  induction S.toList with
  | nil => rfl
  | cons q states ih =>
    rw [List.findSome?_cons, List.find?_cons, isFinal]
    cases hlabel : A.label? q with
    | none => exact ih
    | some label => exact hlabel.symm

theorem isFinal_iff {q : State} : A.isFinal q = true ↔ ∃ label, A.label? q = some label :=
  Option.isSome_iff_exists

/-- A text is accepted if some final state is among the states that it leads to. -/
theorem accepts_iff_exists {w : List Char} :
    A.accepts w = true ↔ ∃ q ∈ A.reached w, ∃ label, A.label? q = some label := by
  rw [accepts, bestFinal, SortedSet.find?, List.find?_isSome]
  simp only [isFinal_iff]
  rfl

end Automaton

end JsonAutomata
