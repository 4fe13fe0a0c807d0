import JsonAutomata.Proofs.Automaton.Shift
import JsonAutomata.Proofs.Thompson.Fragment

/-!
# Numbering — the states of fragments and their order

The construction takes no notice of the numbers that it is given: other numbers give the same
fragment, shifted (`fragment_shift`).  The entry of a fragment is not final, and the exit of a
labelled one reports its label, whichever labelled parts end there as well.
-/

namespace JsonAutomata

namespace Thompson

variable {t : Term} {next entry exit q : Nat} {label : Label}

/-! ## 1. Shifts -/

theorem boundary_shift (next size max entry exit i k : Nat) :
    boundary (next + k) size max (entry + k) (exit + k) i
      = boundary next size max entry exit i + k := by
  unfold boundary
  split
  · rfl
  · split
    · rfl
    · exact Nat.add_right_comm next k _

theorem innerFirst_shift (next size max i k : Nat) :
    innerFirst (next + k) size max i = innerFirst next size max i + k := by
  unfold innerFirst
  rw [Nat.add_right_comm next k]
  split
  · rfl
  · exact Nat.add_right_comm _ k 1

/-- Built with numbers that are `k` greater, a fragment is the same with greater numbers. -/
theorem fragment_shift (t : Term) (next entry exit k : Nat) :
    fragment t (next + k) (entry + k) (exit + k) = (fragment t next entry exit).shift k := by
  have hcomm : ∀ m i, m + k + i = m + i + k := fun m i => Nat.add_right_comm m k i
  induction t generalizing next entry exit with
  | epsilon =>
    rw [fragment, fragment, Automaton.shift_addTransition, Automaton.shift_ofEntry]
  | one cls =>
    rw [fragment, fragment, Automaton.shift_addTransition, Automaton.shift_ofEntry]
  | seq l r ihl ihr =>
    simp only [fragment, hcomm, ihl, ihr, Automaton.shift_addTransition, Automaton.shift_absorb,
      Automaton.shift_ofEntry]
  | alt l r ihl ihr =>
    simp only [fragment, hcomm, ihl, ihr, Automaton.shift_addTransition, Automaton.shift_absorb,
      Automaton.shift_ofEntry]
  | star t ih =>
    simp only [fragment, hcomm, ih, Automaton.shift_addTransition, Automaton.shift_absorb,
      Automaton.shift_ofEntry]
  | times t min max ordered ih =>
    simp only [fragment, boundary_shift, innerFirst_shift, ih, Automaton.shift_foldl_addTransition,
      Automaton.shift_foldl_absorb, Automaton.shift_ofEntry]
  | labeled label t ih =>
    rw [fragment, fragment, Automaton.shift_markFinal, ih]

/-- What a builder makes differs from what a new one makes only by the numbers. -/
theorem build_eq_shift (t : Term) (b : Builder) :
    (b.build t).1 = (Builder.new.build t).1.shift b.allocated := by
  have h := fragment_shift t 2 0 1 b.allocated
  rw [Nat.add_comm 2, Nat.zero_add, Nat.add_comm 1] at h
  exact h

/-! ## 2. Final states -/

section Labels

variable {l r : Term} {min max : Nat} {ordered : min < max}

theorem label?_seq (q : State) :
    (fragment (.seq l r) next entry exit).label? q
      = ((fragment r (next + 2 + interior l) (next + 1) exit).label? q).or
        ((fragment l (next + 2) entry next).label? q) := by
  simp [fragment]

theorem label?_alt (q : State) :
    (fragment (.alt l r) next entry exit).label? q
      = ((fragment r (next + 4 + interior l) (next + 2) (next + 3)).label? q).or
        ((fragment l (next + 4) next (next + 1)).label? q) := by
  simp [fragment]

theorem label?_star (q : State) :
    (fragment (.star t) next entry exit).label? q
      = (fragment t (next + 2) next (next + 1)).label? q := by
  simp [fragment]

/-- Of several copies that label a state, the last one decides. -/
theorem label?_times (q : State) :
    (fragment (.times t min max ordered) next entry exit).label? q
      = (List.range max).reverse.findSome? fun i => (copy t next max entry exit i).label? q := by
  simp only [fragment]
  rw [Automaton.label?_foldl_addTransition, Automaton.label?_foldl_absorb,
    Automaton.label?_ofEntry, Option.or_none]
  rfl

theorem label?_labeled (q : State) :
    (fragment (.labeled label t) next entry exit).label? q
      = if q = exit then some label else (fragment t next entry exit).label? q :=
  Automaton.label?_markFinal exit q label

theorem exists_copy_of_label?
    (h : (fragment (.times t min max ordered) next entry exit).label? q = some label) :
    ∃ i < max, (copy t next max entry exit i).label? q = some label := by
  rw [label?_times] at h
  rcases List.exists_of_findSome?_eq_some h with ⟨i, hi, hcopy⟩
  exact ⟨i, List.mem_range.1 (List.mem_reverse.1 hi), hcopy⟩

end Labels

/-- Final states of a fragment are its exit or inside. -/
theorem final_between (h : (fragment t next entry exit).label? q = some label) :
    q = exit ∨ Inside next t q := by
  induction t generalizing next entry exit label with
  | epsilon => cases h
  | one cls => cases h
  | seq l r ihl ihr =>
    rw [label?_seq, Option.or_eq_some_iff] at h
    simp only [Inside, interior] at ihl ihr ⊢
    rcases h with h | ⟨-, h⟩
    · have hr := ihr h
      omega
    · have hl := ihl h
      omega
  | alt l r ihl ihr =>
    rw [label?_alt, Option.or_eq_some_iff] at h
    simp only [Inside, interior] at ihl ihr ⊢
    rcases h with h | ⟨-, h⟩
    · have hr := ihr h
      omega
    · have hl := ihl h
      omega
  | star t ih =>
    rw [label?_star] at h
    simp only [Inside, interior] at ih ⊢
    have ht := ih h
    omega
  | times t min max ordered ih =>
    rcases exists_copy_of_label? h with ⟨i, hi, hcopy⟩
    rcases ih hcopy with rfl | hinside
    · -- The exit of a copy is a stop, but not the first one.
      rcases boundary_cases (Nat.succ_le_of_lt hi) with ⟨h0, -⟩ | ⟨-, hb⟩ | hb
      · omega
      · exact .inl hb
      · exact .inr hb
    · exact .inr (hinside.of_copy hi)
  | labeled label t ih =>
    rw [label?_labeled] at h
    split at h
    · rename_i heq
      exact .inl heq
    · exact ih h

theorem label?_exit (h : t.label? = some label) :
    (fragment t next entry exit).label? exit = some label := by
  cases t with
  | labeled l t =>
    rw [label?_labeled, if_pos rfl]
    exact h
  | _ => cases h

end Thompson

end JsonAutomata
