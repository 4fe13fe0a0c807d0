import JsonAutomata.Pattern.Language
import Mathlib.Order.CompletePartialOrder

/-!
# Consumable texts and labels of terms

Every text that a term matches can be read into it, and so can the empty text.  A term is plain if
no part of it is labelled, and flat if at most the term as a whole is.
-/

open Computability

namespace JsonAutomata

namespace Term

/-! ## 1. Consumable texts -/

theorem one_le_consumable (t : Term) : 1 ≤ t.consumable := by
  induction t with
  | epsilon => exact le_rfl
  | one cls => exact le_self_add
  | seq l r ihl _ => exact ihl.trans le_self_add
  | alt l r ihl _ => exact ihl.trans le_self_add
  | star t ih => exact one_le_kstar.trans (le_mul_of_one_le_right' ih)
  | times t min max ordered ih =>
    intro w hw
    refine ⟨0, Nat.zero_lt_of_lt ordered, ?_⟩
    rw [pow_zero, one_mul]
    exact ih hw
  | labeled _ t ih => exact ih

/-- A repetition that is matched can be read up to its last part. -/
theorem pow_le_consumable_times {t : Term} (h : t.language ≤ t.consumable) {min max n : Nat}
    {ordered : min < max} (hn : n ≤ max) :
    t.language ^ n ≤ (times t min max ordered).consumable := by
  intro w hw
  rcases Nat.lt_or_ge n max with hlt | hge
  · refine ⟨n, hlt, ?_⟩
    exact le_mul_of_one_le_right' t.one_le_consumable hw
  · obtain rfl : n = max := le_antisymm hn hge
    obtain ⟨m, rfl⟩ : ∃ m, n = m + 1 := ⟨n - 1, by omega⟩
    refine ⟨m, Nat.lt_succ_self m, ?_⟩
    rw [pow_succ] at hw
    exact mul_le_mul_right h _ hw

/-- What a term matches can be read into it. -/
theorem language_le_consumable (t : Term) : t.language ≤ t.consumable := by
  induction t with
  | epsilon => exact le_rfl
  | one cls => exact le_add_self
  | seq l r _ ihr => exact (mul_le_mul_right ihr _).trans le_add_self
  | alt l r ihl ihr => exact add_le_add ihl ihr
  | star t _ => exact le_mul_of_one_le_right' t.one_le_consumable
  | times t min max ordered ih =>
    rintro w ⟨n, -, hn, hw⟩
    exact pow_le_consumable_times ih hn hw
  | labeled _ t ih => exact ih

/-! ## 2. Labels -/

def isPlain : Term → Bool
  | epsilon => true
  | one _ => true
  | seq l r => l.isPlain && r.isPlain
  | alt l r => l.isPlain && r.isPlain
  | star t => t.isPlain
  | times t _ _ _ => t.isPlain
  | labeled _ _ => false

/-- No proper part of the term is labelled. -/
def isFlat (t : Term) : Bool := t.unlabeled.isPlain

theorem isFlat_cases {t : Term} (h : t.isFlat = true) :
    (∃ label u, t = labeled label u ∧ u.isPlain = true) ∨ t.label? = none ∧ t.isPlain = true := by
  cases t with
  | labeled label u => exact .inl ⟨label, u, rfl, h⟩
  | _ => exact .inr ⟨rfl, h⟩

end Term

end JsonAutomata
