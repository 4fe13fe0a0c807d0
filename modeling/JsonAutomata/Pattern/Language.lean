import JsonAutomata.Pattern.Term
import Mathlib.Computability.Language

/-!
# Languages — the texts that a term matches

`Term.language` says what a term means, apart from any automaton: products, unions and repetitions
of the languages of its parts. Labels do not change it. The derived operators are shown to denote
what their names say.

`Term.consumable` holds the texts that can be read into a term: those after which the term may still
be completed. Reading goes on as long as some pattern can consume what has been read.
-/

open Computability

namespace JsonAutomata

namespace CharClass

def language (cls : CharClass) : Language Char := {w | ∃ c, cls.accepts c = true ∧ w = [c]}

theorem mem_language {cls : CharClass} {w : List Char} :
    w ∈ cls.language ↔ ∃ c, cls.accepts c = true ∧ w = [c] := Iff.rfl

theorem language_single (c : Char) : (single c).language = {[c]} := by
  ext w
  simp only [mem_language, accepts_iff, mem_single]
  constructor
  · rintro ⟨d, rfl, hw⟩
    exact hw
  · exact fun hw => ⟨c, rfl, hw⟩

end CharClass

namespace Term

def language : Term → Language Char
  | epsilon => 1
  | one cls => cls.language
  | seq l r => l.language * r.language
  | alt l r => l.language + r.language
  | star t => t.language∗
  | times t min max _ => {w | ∃ n, min ≤ n ∧ n ≤ max ∧ w ∈ t.language ^ n}
  | labeled _ t => t.language

/-- The texts that can be read into a term, complete or not. -/
def consumable : Term → Language Char
  | epsilon => 1
  | one cls => 1 + cls.language
  | seq l r => l.consumable + l.language * r.consumable
  | alt l r => l.consumable + r.consumable
  | star t => t.language∗ * t.consumable
  | times t _ max _ => {w | ∃ n, n < max ∧ w ∈ t.language ^ n * t.consumable}
  | labeled _ t => t.consumable

/-! ## Labels -/

@[simp]
theorem language_unlabeled (t : Term) : t.unlabeled.language = t.language := by
  cases t <;> rfl

@[simp]
theorem language_group (label : Label) (t : Term) : (t.group label).language = t.language :=
  t.language_unlabeled

/-! ## Derived operators -/

theorem language_oneOf_nil (name : String) : (oneOf [] name).language = 0 := by
  ext w
  constructor
  · rintro ⟨c, hc, -⟩
    exact absurd (CharClass.mem_ofChars.1 (CharClass.accepts_iff.1 hc)) List.not_mem_nil
  · exact fun h => absurd h (Set.notMem_empty w)

/-- A concatenation matches the products of what its parts match, in order. -/
theorem language_concat (ts : List Term) : (concat ts).language = (ts.map language).prod := by
  induction ts with
  | nil => rfl
  | cons t ts ih =>
    cases ts with
    | nil => simp [concat]
    | cons u us =>
      rw [concat, language, ih]
      rfl
      exact List.cons_ne_nil u us

/-- A choice matches what any of its parts matches. -/
theorem language_choice (ts : List Term) : (choice ts).language = (ts.map language).sum := by
  induction ts with
  | nil => simp [choice, language_oneOf_nil]
  | cons t ts ih =>
    cases ts with
    | nil => simp [choice]
    | cons u us =>
      rw [choice, language, ih]
      rfl
      exact List.cons_ne_nil u us

theorem language_plus (t : Term) : t.plus.language = t.language * t.language∗ := rfl

theorem language_optional (t : Term) : t.optional.language = t.language + 1 := rfl

theorem language_exactly (t : Term) (n : Nat) : (t.exactly n).language = t.language ^ n := by
  rw [exactly, language_concat, List.map_replicate]
  induction n with
  | zero => rfl
  | succ n ih => rw [List.replicate_succ, List.prod_cons, ih, pow_succ']

/-- A literal matches its own text and nothing else. -/
theorem language_literal (s : List Char) : (literal s).language = {s} := by
  rw [literal, language_concat, List.map_map]
  induction s with
  | nil => rfl
  | cons c cs ih =>
    rw [List.map_cons, List.prod_cons, ih]
    ext w
    simp only [Language.mem_mul, Function.comp_apply, language, CharClass.language_single]
    constructor
    · rintro ⟨a, rfl, b, rfl, rfl⟩
      rfl
    · rintro rfl
      exact ⟨[c], rfl, cs, rfl, rfl⟩

/-- A repetition within bounds matches any number of products between them. -/
theorem mem_language_between {t u : Term} {min max : Nat} (h : t.between min max = .ok u)
    {w : List Char} : w ∈ u.language ↔ ∃ n, min ≤ n ∧ n ≤ max ∧ w ∈ t.language ^ n := by
  unfold between at h
  split at h
  · cases h
    exact Iff.rfl
  · split at h
    · rename_i heq
      cases h
      subst heq
      rw [language_exactly]
      exact ⟨fun hw => ⟨min, le_rfl, le_rfl, hw⟩, fun ⟨n, h1, h2, hw⟩ => le_antisymm h1 h2 ▸ hw⟩
    · cases h

end Term

end JsonAutomata
