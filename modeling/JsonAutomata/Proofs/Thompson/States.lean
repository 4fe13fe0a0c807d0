import JsonAutomata.Proofs.Automaton.Alphabet
import JsonAutomata.Proofs.Thompson.Coverings

/-!
# States — which states compiled automata have

A fragment has its entry, its exit and the states of its interior, and no others
(`mem_states_fragment`).  What builders and merging make is well formed, so compiled automata that
share no state can be merged, and the merged automaton reads and reports exactly what its parts do
(`merge_exact_union`).
-/

namespace JsonAutomata

namespace Automaton

/-! ## 1. States of composed automata -/

variable {A : Automaton} {q : Nat}

theorem mem_states_ofEntry {entry : Nat} : q ∈ (ofEntry entry).states ↔ q = entry :=
  SortedSet.mem_singleton

theorem mem_states_foldl_absorb {α : Type} {part : α → Automaton} {as : List α} :
    q ∈ (as.foldl (fun A a => A.absorb (part a)) A).states ↔
      q ∈ A.states ∨ ∃ a ∈ as, q ∈ (part a).states := by
  induction as generalizing A with
  | nil => simp
  | cons a as ih => simp only [List.foldl_cons, ih, mem_states_absorb, List.exists_mem_cons_iff,
      or_assoc]

theorem mem_states_foldl_addTransition {α : Type} {source : α → State} {target : State}
    {as : List α} :
    q ∈ (as.foldl (fun A a => A.addTransition (source a) target .epsilon) A).states ↔
      q ∈ A.states ∨ ∃ a ∈ as, q = source a ∨ q = target := by
  induction as generalizing A with
  | nil => simp
  | cons a as ih =>
    simp only [List.foldl_cons, ih, mem_states_addTransition, List.exists_mem_cons_iff]
    rw [or_assoc.symm, or_comm (b := q ∈ A.states), or_assoc]

end Automaton

namespace Thompson

variable {t : Term} {next q : Nat}

/-! ## 2. Fragments -/

/-- A state inside a repetition is a stop or lies inside a copy. -/
theorem exists_copy_of_inside (entry exit : Nat) {min max : Nat} {ordered : min < max}
    (h : Inside next (.times t min max ordered) q) :
    ∃ i < max, q = boundary next (interior t) max entry exit (i + 1) ∨
      Inside (innerFirst next (interior t) max i) t q := by
  have ⟨hblock, hcopy⟩ := inside_cases h
  refine ⟨_, hblock, ?_⟩
  by_cases hfirst : (q - next) / (1 + interior t) + 1 < max ∧ (q - next) % (1 + interior t) = 0
  · have hdiv := Nat.div_add_mod (q - next) (1 + interior t)
    have hnext := h.1
    rw [hfirst.2, Nat.mul_comm] at hdiv
    rw [boundary_succ hfirst.1]
    exact .inl (by omega)
  · exact .inr (hcopy hfirst)

theorem mem_states_fragment {entry exit : Nat} :
    q ∈ (fragment t next entry exit).states ↔ q = entry ∨ q = exit ∨ Inside next t q := by
  induction t generalizing next entry exit with
  | epsilon =>
    simp only [fragment, Automaton.mem_states_addTransition, Automaton.mem_states_ofEntry, Inside,
      interior]
    omega
  | one cls =>
    simp only [fragment, Automaton.mem_states_addTransition, Automaton.mem_states_ofEntry, Inside,
      interior]
    omega
  | seq l r ihl ihr =>
    simp only [fragment, Automaton.mem_states_addTransition, Automaton.mem_states_absorb,
      Automaton.mem_states_ofEntry, ihl, ihr, Inside, interior]
    omega
  | alt l r ihl ihr =>
    simp only [fragment, Automaton.mem_states_addTransition, Automaton.mem_states_absorb,
      Automaton.mem_states_ofEntry, ihl, ihr, Inside, interior]
    omega
  | star t ih =>
    simp only [fragment, Automaton.mem_states_addTransition, Automaton.mem_states_absorb,
      Automaton.mem_states_ofEntry, ih, Inside, interior]
    omega
  | times t min max ordered ih =>
    simp only [fragment, Automaton.mem_states_foldl_addTransition,
      Automaton.mem_states_foldl_absorb, Automaton.mem_states_ofEntry, ih, List.mem_range,
      List.mem_range'_1]
    have hstop : ∀ i ≤ max, boundary next (interior t) max entry exit i = entry ∨
        boundary next (interior t) max entry exit i = exit ∨
        Inside next (.times t min max ordered) (boundary next (interior t) max entry exit i) := by
      intro i hi
      rcases boundary_cases hi with ⟨-, h⟩ | ⟨-, h⟩ | h
      · exact .inl h
      · exact .inr (.inl h)
      · exact .inr (.inr h)
    constructor
    · rintro ((rfl | ⟨i, hi, rfl | rfl | h⟩) | ⟨i, hi, rfl | rfl⟩)
      · exact .inl rfl
      · exact hstop i (Nat.le_of_lt hi)
      · exact hstop (i + 1) hi
      · exact .inr (.inr (h.of_copy hi))
      · exact hstop i (by omega)
      · exact .inr (.inl rfl)
    · rintro (rfl | rfl | h)
      · exact .inl (.inl rfl)
      · have hmin : min ≤ min ∧ min < min + (max - min) := by omega
        exact .inr ⟨min, hmin, .inr rfl⟩
      · rcases exists_copy_of_inside entry exit h with ⟨i, hi, hstop | hinside⟩
        · exact .inl (.inr ⟨i, hi, .inr (.inl hstop)⟩)
        · exact .inl (.inr ⟨i, hi, .inr (.inr hinside)⟩)
  | labeled label t ih =>
    simp only [fragment, Automaton.mem_states_markFinal, ih, Inside, interior]
    omega

theorem assembled_fragment (t : Term) (next entry exit : State) :
    (fragment t next entry exit).Assembled := by
  have hentry := Automaton.Assembled.ofEntry entry
  induction t generalizing next entry exit with
  | epsilon => exact hentry.addTransition _ _ _
  | one cls => exact hentry.addTransition _ _ _
  | seq l r ihl ihr =>
    have hl := ihl (next + 2) entry next hentry
    have hr := ihr (next + 2 + interior l) (next + 1) exit (.ofEntry _)
    simp only [fragment]
    exact ((hentry.absorb hl).absorb hr).addTransition _ _ _
  | alt l r ihl ihr =>
    have hl := ihl (next + 4) next (next + 1) (.ofEntry _)
    have hr := ihr (next + 4 + interior l) (next + 2) (next + 3) (.ofEntry _)
    have hboth := (hentry.absorb hl).absorb hr
    simp only [fragment]
    exact (((hboth.addTransition _ _ _).addTransition _ _ _).addTransition _ _ _).addTransition
      _ _ _
  | star t ih =>
    have hbody := hentry.absorb (ih (next + 2) next (next + 1) (.ofEntry _))
    exact (((hbody.addTransition _ _ _).addTransition _ _ _).addTransition _ _ _).addTransition
      _ _ _
  | times t min max ordered ih =>
    have hchain := hentry.foldl_absorb (copy t next max entry exit)
      (fun i => ih _ _ _ (.ofEntry _)) (List.range max)
    exact hchain.foldl_addTransition _ _ _
  | labeled label t ih => exact (ih next entry exit hentry).markFinal _ _

theorem wellFormed_fragment (t : Term) (next entry exit : State) :
    (fragment t next entry exit).WellFormed := (assembled_fragment t next entry exit).wellFormed

end Thompson

/-! ## 3. Compiled automata -/

/-- What can be made of terms: fragments between any two states, and what these are merged to. -/
inductive Compiled : Automaton → Prop
  | between (b : Builder) (t : Term) (entry exit : State) :
      Compiled (b.buildBetween t entry exit).1
  | merge (entry : State) {parts : List Automaton} (h : ∀ A ∈ parts, Compiled A) :
      Compiled (Automaton.merge entry parts)

theorem compiled_build (b : Builder) (t : Term) : Compiled (b.build t).1 :=
  .between ⟨b.allocated + 2⟩ t b.allocated (b.allocated + 1)

theorem Compiled.assembled {A : Automaton} (h : Compiled A) : A.Assembled := by
  induction h with
  | between b t entry exit => exact Thompson.assembled_fragment t b.allocated entry exit
  | merge entry _ ih => exact Automaton.Assembled.merge ih

theorem Compiled.wellFormed {A : Automaton} (h : Compiled A) : A.WellFormed := h.assembled.wellFormed

namespace Automaton

variable {entry : State} {parts : List Automaton}

/-- Compiled automata that share no state with each other or with a new entry are merged to their
union.  A text leads from the new entry to the states that it leads to in the parts, no two of which
reach a common state, and to the new entry if it is empty.  So the text is accepted if a part accepts
it, and the final state of highest priority is the smallest one that it reaches in any part, with
the label that it has there. -/
theorem merge_exact_union (hcompiled : ∀ A ∈ parts, Compiled A)
    (hfresh : ∀ A ∈ parts, ¬ entry ∈ A.states) (hdisjoint : parts.Pairwise DisjointStates)
    (w : List Char) :
    (∀ q, q ∈ (merge entry parts).reached w ↔
      (w = [] ∧ q = entry) ∨ ∃ A ∈ parts, q ∈ A.reached w) ∧
    (∀ A ∈ parts, ¬ entry ∈ A.reached w) ∧
    (parts.Pairwise fun A B => ∀ q ∈ A.reached w, ¬ q ∈ B.reached w) ∧
    ((merge entry parts).accepts w = true ↔ ∃ A ∈ parts, A.accepts w = true) ∧
    ∀ q, (merge entry parts).bestFinal ((merge entry parts).reached w) = some q ↔
      ∃ A ∈ parts, q ∈ A.reached w ∧ A.isFinal q = true ∧
        (merge entry parts).label? q = A.label? q ∧
        ∀ B ∈ parts, ∀ p ∈ B.reached w, B.isFinal p = true → q ≤ p := by
  have hapart : Apart entry parts := ⟨fun A hA => (hcompiled A hA).wellFormed, hfresh, hdisjoint⟩
  have hmem : ∀ A ∈ parts, ∀ q ∈ A.reached w, q ∈ A.states :=
    fun A hA q hq => (hapart.wellFormed A hA).mem_of_reached hq
  -- Final states are reached in the whole where they are reached in a part.
  have hfinal : ∀ q, q ∈ (merge entry parts).reached w ∧ (merge entry parts).isFinal q = true ↔
      ∃ A ∈ parts, q ∈ A.reached w ∧ A.isFinal q = true := by
    intro q
    simp only [isFinal_iff, ← exists_and_left, hapart.final_reached_merge_iff]
    exact exists_comm
  refine ⟨fun q => hapart.mem_reached_merge, fun A hA hq => hfresh A hA (hmem A hA entry hq), ?_,
    ?_, fun q => ?_⟩
  · exact hdisjoint.imp_of_mem fun hA hB h q hqA hqB => h q (hmem _ hA q hqA) (hmem _ hB q hqB)
  · simp only [accepts_iff_exists, ← isFinal_iff]
    constructor
    · rintro ⟨q, hq⟩
      rcases (hfinal q).1 hq with ⟨A, hA, h⟩
      exact ⟨A, hA, q, h⟩
    · rintro ⟨A, hA, q, h⟩
      exact ⟨q, (hfinal q).2 ⟨A, hA, h⟩⟩
  · rw [bestFinal_eq_some_iff, ← and_assoc, hfinal]
    constructor
    · rintro ⟨⟨A, hA, hq, hqf⟩, hleast⟩
      refine ⟨A, hA, hq, hqf, hapart.label?_merge hA (hmem A hA q hq), fun B hB p hp hpf => ?_⟩
      have hreached := (hfinal p).2 ⟨B, hB, hp, hpf⟩
      exact hleast p hreached.1 hreached.2
    · rintro ⟨A, hA, hq, hqf, -, hleast⟩
      refine ⟨⟨A, hA, hq, hqf⟩, fun p hp hpf => ?_⟩
      rcases (hfinal p).1 ⟨hp, hpf⟩ with ⟨B, hB, hpB, hpfB⟩
      exact hleast B hB p hpB hpfB

/-- A loop of epsilon transitions beside an automaton that is merged itself: three final states are
reached, and the smallest one is the exit of the loop. -/
theorem merge_exact_union_nested :
    let loop := (Builder.build ⟨1⟩ (.labeled "loop" (.star (.labeled "round" (.one (.single 'a')))))).1
    let letters := merge 5 [(Builder.build ⟨6⟩ (.labeled "a" (.one (.single 'a')))).1,
      (Builder.build ⟨8⟩ (.labeled "b" (.one (.single 'b')))).1]
    (∀ A ∈ [loop, letters], Compiled A) ∧ (∀ A ∈ [loop, letters], ¬ 0 ∈ A.states) ∧
      [loop, letters].Pairwise DisjointStates ∧
      (merge 0 [loop, letters]).bestFinal ((merge 0 [loop, letters]).reached ['a']) = some 2 := by
  intro loop letters
  have hletters : Compiled letters := by
    refine .merge 5 fun A hA => ?_
    rcases List.mem_pair.1 hA with rfl | rfl
    · exact compiled_build _ _
    · exact compiled_build _ _
  have hcompiled : ∀ A ∈ [loop, letters], Compiled A := by
    intro A hA
    rcases List.mem_pair.1 hA with rfl | rfl
    · exact compiled_build _ _
    · exact hletters
  have hfresh : ∀ A ∈ [loop, letters], ¬ 0 ∈ A.states.toList := by decide
  have hdisjoint : ∀ q ∈ loop.states.toList, ¬ q ∈ letters.states.toList := by decide
  have hpairwise : [loop, letters].Pairwise DisjointStates := List.pairwise_pair.2 hdisjoint
  refine ⟨hcompiled, hfresh, hpairwise, ?_⟩
  have hleast : ∀ B ∈ [loop, letters], ∀ p ∈ (B.reached ['a']).toList,
      B.isFinal p = true → 2 ≤ p := by decide
  have hreached : 2 ∈ (loop.reached ['a']).toList := by decide
  exact ((merge_exact_union hcompiled hfresh hpairwise ['a']).2.2.2.2 2).2
    ⟨loop, List.mem_cons_self, hreached, by decide, by decide, hleast⟩

end Automaton

end JsonAutomata
