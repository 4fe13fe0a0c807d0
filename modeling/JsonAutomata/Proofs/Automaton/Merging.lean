import JsonAutomata.Proofs.Automaton.Assembly
import JsonAutomata.Proofs.Automaton.Reachability
import Mathlib.Data.List.Pairwise

/-!
# Merging — automata side by side

An automaton is well formed if its entry, the ends of its transitions and its final states are
states of its own.  Every operation that puts automata together keeps this, and from well-formed
parts that share no state a merged automaton is their union: a path from the new entry stays there
or goes through one part (`path_merge_iff`), and a state reports what it reports in its part.
-/

namespace JsonAutomata

namespace Automaton

variable {A B : Automaton} {q s u : Nat} {m : Matcher} {label : Label} {w : List Char}

/-! ## 1. Well-formed automata -/

/-- The entry, the ends of the transitions and the final states are states of the automaton. -/
structure WellFormed (A : Automaton) : Prop where
  entry_mem : A.entry ∈ A.states
  ends_mem : ∀ t ∈ A.transitions, t.source ∈ A.states ∧ t.target ∈ A.states
  final_mem : ∀ q label, A.label? q = some label → q ∈ A.states

theorem wellFormed_ofEntry (entry : State) : (ofEntry entry).WellFormed := by
  refine ⟨SortedSet.mem_singleton.2 rfl, fun t ht => ?_, fun q label hq => ?_⟩
  · cases ht
  · cases hq

theorem mem_states_addTransition :
    q ∈ (A.addTransition s u m).states ↔ q = s ∨ q = u ∨ q ∈ A.states := by
  show q ∈ (A.states.insert s).insert u ↔ _
  rw [SortedSet.mem_insert, SortedSet.mem_insert, or_left_comm]

theorem mem_states_markFinal : q ∈ (A.markFinal s label).states ↔ q = s ∨ q ∈ A.states :=
  SortedSet.mem_insert

theorem mem_states_absorb : q ∈ (A.absorb B).states ↔ q ∈ A.states ∨ q ∈ B.states :=
  SortedSet.mem_union

theorem WellFormed.addTransition (h : A.WellFormed) (s u : State) (m : Matcher) :
    (A.addTransition s u m).WellFormed := by
  have hsub : ∀ q ∈ A.states, q ∈ (A.addTransition s u m).states :=
    fun q hq => mem_states_addTransition.2 (.inr (.inr hq))
  refine ⟨hsub _ h.entry_mem, fun t ht => ?_, fun q label hq => hsub q (h.final_mem q label hq)⟩
  rw [transitions_addTransition, List.mem_append, List.mem_singleton] at ht
  rcases ht with ht | rfl
  · exact ⟨hsub _ (h.ends_mem t ht).1, hsub _ (h.ends_mem t ht).2⟩
  · exact ⟨mem_states_addTransition.2 (.inl rfl), mem_states_addTransition.2 (.inr (.inl rfl))⟩

theorem WellFormed.markFinal (h : A.WellFormed) (s : State) (label : Label) :
    (A.markFinal s label).WellFormed := by
  have hsub : ∀ q ∈ A.states, q ∈ (A.markFinal s label).states :=
    fun q hq => mem_states_markFinal.2 (.inr hq)
  refine ⟨hsub _ h.entry_mem, fun t ht => ?_, fun q l hq => ?_⟩
  · exact ⟨hsub _ (h.ends_mem t ht).1, hsub _ (h.ends_mem t ht).2⟩
  · rw [label?_markFinal] at hq
    split at hq
    · rename_i heq
      exact mem_states_markFinal.2 (.inl heq)
    · exact hsub q (h.final_mem q l hq)

theorem WellFormed.absorb (hA : A.WellFormed) (hB : B.WellFormed) : (A.absorb B).WellFormed := by
  have hleft : ∀ q ∈ A.states, q ∈ (A.absorb B).states :=
    fun q hq => mem_states_absorb.2 (.inl hq)
  have hright : ∀ q ∈ B.states, q ∈ (A.absorb B).states :=
    fun q hq => mem_states_absorb.2 (.inr hq)
  refine ⟨hleft _ hA.entry_mem, fun t ht => ?_, fun q label hq => ?_⟩
  · rw [transitions_absorb, List.mem_append] at ht
    rcases ht with ht | ht
    · exact ⟨hleft _ (hA.ends_mem t ht).1, hleft _ (hA.ends_mem t ht).2⟩
    · exact ⟨hright _ (hB.ends_mem t ht).1, hright _ (hB.ends_mem t ht).2⟩
  · rw [label?_absorb, Option.or_eq_some_iff] at hq
    rcases hq with hq | ⟨-, hq⟩
    · exact hright q (hB.final_mem q label hq)
    · exact hleft q (hA.final_mem q label hq)

theorem WellFormed.mem_of_path (h : A.WellFormed) (path : A.Path s w u) (hs : s ∈ A.states) :
    u ∈ A.states := by
  rcases path.target_cases with rfl | ⟨t, m, edge⟩
  · exact hs
  · exact (h.ends_mem _ edge).2

/-! ## 2. Parts without common states -/

def DisjointStates (A B : Automaton) : Prop := ∀ q ∈ A.states, ¬ q ∈ B.states

instance : Std.Symm DisjointStates := ⟨fun _ _ h q hB hA => h q hA hB⟩

/-- The parts are well formed and share no state with each other or with the entry. -/
structure Apart (entry : State) (parts : List Automaton) : Prop where
  wellFormed : ∀ A ∈ parts, A.WellFormed
  fresh : ∀ A ∈ parts, ¬ entry ∈ A.states
  disjoint : parts.Pairwise DisjointStates

variable {entry : Nat} {parts : List Automaton}

/-- A state belongs to one part only. -/
theorem Apart.eq_of_mem (h : Apart entry parts) (hA : A ∈ parts) (hB : B ∈ parts)
    (hqA : q ∈ A.states) (hqB : q ∈ B.states) : A = B := by
  by_contra hne
  exact h.disjoint.forall hA hB hne q hqA hqB

theorem mem_transitions_merge {t : Transition} :
    t ∈ (merge entry parts).transitions ↔
      ∃ A ∈ parts, t ∈ A.transitions ∨ t = ⟨entry, A.entry, .epsilon⟩ := by
  rw [transitions_merge, List.mem_flatMap]
  simp only [List.mem_append, List.mem_singleton]

/-- A transition that leaves a state of a part belongs to the part. -/
theorem Apart.edge_of_mem (h : Apart entry parts) (hA : A ∈ parts) (hs : s ∈ A.states)
    (edge : ⟨s, u, m⟩ ∈ (merge entry parts).transitions) : ⟨s, u, m⟩ ∈ A.transitions := by
  rcases mem_transitions_merge.1 edge with ⟨B, hB, edge | edge⟩
  · have hsB := ((h.wellFormed B hB).ends_mem _ edge).1
    exact h.eq_of_mem hA hB hs hsB ▸ edge
  · cases edge
    exact absurd hs (h.fresh A hA)

/-- A transition that leaves the common entry leads to the entry of a part. -/
theorem Apart.edge_of_entry (h : Apart entry parts)
    (edge : ⟨entry, u, m⟩ ∈ (merge entry parts).transitions) :
    ∃ A ∈ parts, u = A.entry ∧ m = .epsilon := by
  rcases mem_transitions_merge.1 edge with ⟨A, hA, edge | edge⟩
  · exact absurd ((h.wellFormed A hA).ends_mem _ edge).1 (h.fresh A hA)
  · cases edge
    exact ⟨A, hA, rfl, rfl⟩

theorem path_mono (hsub : A.transitions ⊆ B.transitions) (path : A.Path s w u) :
    B.Path s w u := by
  induction path with
  | refl => exact .refl _
  | skip edge _ ih => exact .skip (hsub edge) ih
  | consume edge hc _ ih => exact .consume (hsub edge) hc ih

theorem Apart.path_of_mem (h : Apart entry parts) (hA : A ∈ parts) (hs : s ∈ A.states)
    (path : (merge entry parts).Path s w u) : A.Path s w u := by
  induction path with
  | refl => exact .refl _
  | skip edge _ ih =>
    have hedge := h.edge_of_mem hA hs edge
    exact .skip hedge (ih ((h.wellFormed A hA).ends_mem _ hedge).2)
  | consume edge hc _ ih =>
    have hedge := h.edge_of_mem hA hs edge
    exact .consume hedge hc (ih ((h.wellFormed A hA).ends_mem _ hedge).2)

/-- A path from the common entry stays there or goes through one part. -/
theorem Apart.path_merge_iff (h : Apart entry parts) :
    (merge entry parts).Path entry w q ↔
      (w = [] ∧ q = entry) ∨ ∃ A ∈ parts, A.Path A.entry w q := by
  constructor
  · intro path
    cases path with
    | refl => exact .inl ⟨rfl, rfl⟩
    | skip edge rest =>
      rcases h.edge_of_entry edge with ⟨A, hA, rfl, -⟩
      exact .inr ⟨A, hA, h.path_of_mem hA (h.wellFormed A hA).entry_mem rest⟩
    | consume edge _ _ =>
      rcases h.edge_of_entry edge with ⟨_, _, _, hm⟩
      cases hm
  · rintro (⟨rfl, rfl⟩ | ⟨A, hA, path⟩)
    · exact .refl _
    · refine .skip (mem_transitions_merge.2 ⟨A, hA, .inr rfl⟩) (path_mono ?_ path)
      exact fun t ht => mem_transitions_merge.2 ⟨A, hA, .inl ht⟩

theorem Apart.mem_reached_merge (h : Apart entry parts) :
    q ∈ (merge entry parts).reached w ↔
      (w = [] ∧ q = entry) ∨ ∃ A ∈ parts, q ∈ A.reached w := by
  simp only [mem_reached, entry_merge]
  exact h.path_merge_iff

theorem WellFormed.mem_of_reached (h : A.WellFormed) (hq : q ∈ A.reached w) : q ∈ A.states :=
  h.mem_of_path (mem_reached.1 hq) h.entry_mem

/-! ## 3. Final states of merged automata -/

/-- A state of a part reports what it reports there, although the parts merged later could have
replaced its label. -/
theorem Apart.label?_merge (h : Apart entry parts) (hA : A ∈ parts) (hq : q ∈ A.states) :
    (merge entry parts).label? q = A.label? q := by
  rw [Automaton.label?_merge]
  have hother : ∀ B ∈ parts, B ≠ A → B.label? q = none := by
    intro B hB hne
    by_contra hsome
    rcases Option.ne_none_iff_exists'.1 hsome with ⟨label, hlabel⟩
    exact hne (h.eq_of_mem hB hA ((h.wellFormed B hB).final_mem q label hlabel) hq)
  cases hlabel : A.label? q with
  | none =>
    rw [List.findSome?_eq_none_iff]
    intro B hB
    by_cases heq : B = A
    · rw [heq, hlabel]
    · exact hother B (List.mem_reverse.1 hB) heq
  | some label =>
    cases hfound : parts.reverse.findSome? fun part => part.label? q with
    | none =>
      have hnone := List.findSome?_eq_none_iff.1 hfound A (List.mem_reverse.2 hA)
      rw [hlabel] at hnone
      cases hnone
    | some found =>
      rcases List.exists_of_findSome?_eq_some hfound with ⟨B, hB, hBq⟩
      by_cases heq : B = A
      · rw [← hBq, heq, hlabel]
      · rw [hother B (List.mem_reverse.1 hB) heq] at hBq
        cases hBq

theorem Apart.label?_merge_eq_some_iff (h : Apart entry parts) :
    (merge entry parts).label? q = some label ↔ ∃ A ∈ parts, A.label? q = some label := by
  constructor
  · intro hlabel
    have hfound := hlabel
    rw [Automaton.label?_merge] at hfound
    rcases List.exists_of_findSome?_eq_some hfound with ⟨A, hA, hq⟩
    exact ⟨A, List.mem_reverse.1 hA, hq⟩
  · rintro ⟨A, hA, hq⟩
    rw [h.label?_merge hA ((h.wellFormed A hA).final_mem q label hq)]
    exact hq

/-- A final state that a text reaches is one that the text reaches in a part. -/
theorem Apart.final_reached_merge_iff (h : Apart entry parts) :
    q ∈ (merge entry parts).reached w ∧ (merge entry parts).label? q = some label ↔
      ∃ A ∈ parts, q ∈ A.reached w ∧ A.label? q = some label := by
  rw [h.mem_reached_merge]
  constructor
  · rintro ⟨⟨-, rfl⟩ | ⟨A, hA, hq⟩, hlabel⟩
    · -- The common entry is a state of no part, so it is not final.
      rcases h.label?_merge_eq_some_iff.1 hlabel with ⟨A, hA, hq⟩
      exact absurd ((h.wellFormed A hA).final_mem _ label hq) (h.fresh A hA)
    · rw [h.label?_merge hA ((h.wellFormed A hA).mem_of_reached hq)] at hlabel
      exact ⟨A, hA, hq, hlabel⟩
  · rintro ⟨A, hA, hq, hlabel⟩
    exact ⟨.inr ⟨A, hA, hq⟩, h.label?_merge_eq_some_iff.2 ⟨A, hA, hlabel⟩⟩

/-- The final state of highest priority is the smallest one that is reached. -/
theorem bestFinal_eq_some_iff {S : StateSet} :
    A.bestFinal S = some q ↔
      q ∈ S ∧ A.isFinal q = true ∧ ∀ p ∈ S, A.isFinal p = true → q ≤ p := by
  unfold bestFinal SortedSet.find?
  rw [List.find?_eq_some_iff_append]
  have hasc := S.ascending
  constructor
  · rintro ⟨hfinal, before, after, heq, hbefore⟩
    rw [heq, List.pairwise_append, List.pairwise_cons] at hasc
    refine ⟨?_, hfinal, fun p hp hpfinal => ?_⟩
    · rw [← SortedSet.mem_toList, heq]
      exact List.mem_append_right before List.mem_cons_self
    · rw [← SortedSet.mem_toList, heq, List.mem_append, List.mem_cons] at hp
      rcases hp with hp | rfl | hp
      · have hnot := hbefore p hp
        rw [hpfinal] at hnot
        cases hnot
      · exact Nat.le_refl p
      · have hlt : q < p := Nat.compare_eq_lt.1 (hasc.2.1.1 p hp)
        exact Nat.le_of_lt hlt
  · rintro ⟨hq, hfinal, hleast⟩
    obtain ⟨before, after, heq⟩ := List.append_of_mem (SortedSet.mem_toList.2 hq)
    refine ⟨hfinal, before, after, heq, fun p hp => ?_⟩
    rw [heq, List.pairwise_append] at hasc
    have hlt : p < q := Nat.compare_eq_lt.1 (hasc.2.2 p hp q List.mem_cons_self)
    have hpS : p ∈ S := by
      rw [← SortedSet.mem_toList, heq]
      exact List.mem_append_left _ hp
    by_contra hpfinal
    rw [Bool.not_eq_true', Bool.not_eq_false] at hpfinal
    exact absurd (hleast p hpS hpfinal) (Nat.not_le_of_lt hlt)

end Automaton

end JsonAutomata
