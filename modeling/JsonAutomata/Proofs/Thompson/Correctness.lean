import JsonAutomata.Proofs.Automaton.Reachability
import JsonAutomata.Proofs.Thompson.Coverings
import JsonAutomata.Proofs.Thompson.Paths

/-!
# Correctness of Thompson's construction

The compiled automaton of a term leads from its entry to its exit by exactly the texts that the term
matches (`path_exit_iff`), and to any state at all by exactly those that can be read into the term
(`exists_path_iff`).  A term without labels compiles to an automaton without final states, so under
a label on the whole term acceptance is membership in its language.
-/

open Computability

namespace JsonAutomata

namespace Thompson

variable {t : Term} {next entry exit : Nat} {w : List Char}

/-! ## 1. Fragments by themselves -/

theorem path_exit_iff (hentry : entry < next) (hexit : exit < next) (hne : entry ≠ exit) :
    (fragment t next entry exit).Path entry w exit ↔ w ∈ t.language := by
  constructor
  · intro path
    -- Nothing is read before the entry, so the covering begins with the empty text there.
    obtain ⟨F, hF⟩ := exists_covering t next entry exit hentry hexit hne 1
    have hw := hF.covers.mem_of_path path (hF.at_entry.ge Language.nil_mem_one)
    rwa [hF.at_exit, one_mul] at hw
  · exact path_of_mem_language (List.Subset.refl _)

/-- Every state that a path through a covered fragment reaches is bounded. -/
theorem FragmentCovering.le_consumable {H : Language Char} {F : Nat → Language Char}
    (h : FragmentCovering t next entry exit H F) {q : Nat}
    (hq : q = entry ∨ q = exit ∨ Inside next t q) : F q ≤ H * t.consumable := by
  rcases hq with rfl | rfl | hq
  · exact h.at_entry.le.trans (le_mul_of_one_le_right' t.one_le_consumable)
  · exact h.at_exit.le.trans (mul_le_mul_right t.language_le_consumable H)
  · exact h.at_inside q hq

theorem exists_path_iff (hentry : entry < next) (hexit : exit < next) (hne : entry ≠ exit) :
    (∃ q, (fragment t next entry exit).Path entry w q) ↔ w ∈ t.consumable := by
  constructor
  · rintro ⟨q, path⟩
    obtain ⟨F, hF⟩ := exists_covering t next entry exit hentry hexit hne 1
    have hw := hF.covers.mem_of_path path (hF.at_entry.ge Language.nil_mem_one)
    have hq : q = entry ∨ q = exit ∨ Inside next t q := by
      rcases path.target_cases with h | ⟨s, m, he⟩
      · exact .inl h
      · exact .inr (edge_between he).2
    have hle := hF.le_consumable hq hw
    rwa [one_mul] at hle
  · exact exists_path_of_mem_consumable (List.Subset.refl _)

/-! ## 2. Labels -/

theorem label?_fragment_of_isPlain (h : t.isPlain = true) (q : State) :
    (fragment t next entry exit).label? q = none := by
  induction t generalizing next entry exit with
  | epsilon => rfl
  | one cls => rfl
  | seq l r ihl ihr =>
    have ⟨hl, hr⟩ := Bool.and_eq_true_iff.1 h
    simp [fragment, ihl hl, ihr hr]
  | alt l r ihl ihr =>
    have ⟨hl, hr⟩ := Bool.and_eq_true_iff.1 h
    simp [fragment, ihl hl, ihr hr]
  | star t ih => simp [fragment, ih h]
  | times t min max ordered ih =>
    simp only [fragment]
    rw [Automaton.label?_foldl_addTransition, Automaton.label?_foldl_absorb,
      Automaton.label?_ofEntry, Option.or_none, List.findSome?_eq_none_iff]
    exact fun i _ => ih h
  | labeled label t => cases h

/-- Under a label on the whole term, the exit is the only final state. -/
theorem label?_fragment_of_isFlat (h : t.isFlat = true) (q : State) :
    (fragment t next entry exit).label? q = if q = exit then t.label? else none := by
  rcases Term.isFlat_cases h with ⟨label, u, rfl, hu⟩ | ⟨hlabel, ht⟩
  · rw [fragment, Automaton.label?_markFinal, label?_fragment_of_isPlain hu]
    rfl
  · rw [label?_fragment_of_isPlain ht, hlabel, ite_self]

end Thompson

/-! ## 3. Compiled terms -/

namespace Builder

variable (t : Term) (b : Builder) (w : List Char)

theorem build_fst :
    (b.build t).1 = Thompson.fragment t (b.allocated + 2) b.allocated (b.allocated + 1) := rfl

@[simp]
theorem entry_build : (b.build t).1.entry = b.allocated :=
  Thompson.entry_fragment _ _ _ t

theorem mem_reached_build :
    b.allocated + 1 ∈ (b.build t).1.reached w ↔ w ∈ t.language := by
  rw [Automaton.mem_reached, entry_build, build_fst]
  have hentry : b.allocated < b.allocated + 2 := by omega
  have hexit : b.allocated + 1 < b.allocated + 2 := by omega
  have hne : b.allocated ≠ b.allocated + 1 := by omega
  exact Thompson.path_exit_iff hentry hexit hne

theorem accepts_build (hgrouped : t.isGrouped = true) (hflat : t.isFlat = true) :
    (b.build t).1.accepts w = true ↔ w ∈ t.language := by
  rw [← mem_reached_build t b, Automaton.accepts_iff_exists]
  obtain ⟨label, hlabel⟩ := Option.isSome_iff_exists.1 hgrouped
  constructor
  · rintro ⟨q, hq, l, hl⟩
    rw [build_fst, Thompson.label?_fragment_of_isFlat hflat] at hl
    split at hl
    · rename_i heq
      exact heq ▸ hq
    · cases hl
  · intro hw
    refine ⟨_, hw, label, ?_⟩
    rw [build_fst, Thompson.label?_fragment_of_isFlat hflat, if_pos rfl, hlabel]

/-- Compiled by any builder, a term leads from its entry to its exit, the state after it, by exactly
the texts that it matches; if the term is labelled as a whole and nowhere else, these are the texts
that its automaton accepts. -/
theorem build_recognizes (t : Term) (b : Builder) :
    (∀ w, (b.build t).1.entry + 1 ∈ (b.build t).1.reached w ↔ w ∈ t.language) ∧
      (t.isGrouped = true → t.isFlat = true →
        ∀ w, (b.build t).1.accepts w = true ↔ w ∈ t.language) := by
  constructor
  · intro w
    rw [entry_build]
    exact mem_reached_build t b w
  · intro hgrouped hflat w
    exact accepts_build t b w hgrouped hflat

/-- Two or three rounds of `ab`, compiled after seven other states. -/
theorem build_recognizes_rounds :
    let rounds : Term := .labeled "rounds" (.times (.literal ['a', 'b']) 2 3 (by decide))
    rounds.isGrouped = true ∧ rounds.isFlat = true ∧
      "abab".toList ∈ rounds.language ∧ ¬ "ab".toList ∈ rounds.language := by
  intro rounds
  have haccepts := (build_recognizes rounds ⟨7⟩).2 rfl rfl
  refine ⟨rfl, rfl, (haccepts _).1 (by decide), fun h => ?_⟩
  exact absurd ((haccepts _).2 h) (by decide)

end Builder

end JsonAutomata
