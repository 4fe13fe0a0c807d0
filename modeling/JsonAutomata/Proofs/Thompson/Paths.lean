import JsonAutomata.Automaton.Path
import JsonAutomata.Proofs.Pattern.Prefixes
import JsonAutomata.Proofs.Thompson.Fragment

/-!
# Paths through fragments

A fragment leads from its entry to its exit by what its term matches, in any automaton that has its
edges (`path_of_mem_language`), and from its entry to some state by what can be read into the term
(`exists_path_of_mem_consumable`).  The states need not be apart for this.
-/

open Computability

namespace JsonAutomata

namespace Thompson

variable {A : Automaton} {next entry exit : Nat}

/-! ## 1. Repetitions -/

theorem edge_path {s u : Nat} (h : ⟨s, u, .epsilon⟩ ∈ A.transitions) : A.Path s [] u :=
  .skip h (.refl u)

/-- Rounds through a body from its exit back to its exit. -/
theorem path_rounds {L : Language Char} {first last : Nat}
    (back : ⟨last, first, .epsilon⟩ ∈ A.transitions)
    (body : ∀ w ∈ L, A.Path first w last) {w : List Char} (hw : w ∈ L∗) : A.Path last w last := by
  obtain ⟨parts, rfl, hparts⟩ := hw
  -- One round for each part of the text.
  induction parts with
  | nil => exact .refl last
  | cons v parts ih =>
    have hv := body v (hparts v List.mem_cons_self)
    have hrest := ih fun y hy => hparts y (List.mem_cons_of_mem v hy)
    rw [List.flatten_cons]
    exact .skip back (hv.append hrest)

/-- The text of a repetition is nothing, or is read by a first round and further ones. -/
theorem mem_kstar_cases {L : Language Char} {w : List Char} (hw : w ∈ L∗) :
    w = [] ∨ ∃ u ∈ L, ∃ v ∈ L∗, u ++ v = w := by
  rw [← Language.one_add_self_mul_kstar_eq_kstar, Language.mem_add, Language.mem_one,
    Language.mem_mul] at hw
  exact hw

/-- A repetition leads from its entry to the beginning of another round. -/
theorem star_path_first {L : Language Char} {first last : Nat}
    (enter : ⟨entry, first, .epsilon⟩ ∈ A.transitions)
    (back : ⟨last, first, .epsilon⟩ ∈ A.transitions)
    (body : ∀ w ∈ L, A.Path first w last) {w : List Char} (hw : w ∈ L∗) :
    A.Path entry w first := by
  rcases mem_kstar_cases hw with rfl | ⟨u, hu, v, hv, rfl⟩
  · exact edge_path enter
  · have hround := (body u hu).append ((path_rounds back body hv).append (edge_path back))
    rw [List.append_nil] at hround
    exact .skip enter hround

/-- A repetition leads from its entry to its exit. -/
theorem star_path_exit {L : Language Char} {first last : Nat}
    (enter : ⟨entry, first, .epsilon⟩ ∈ A.transitions)
    (bypass : ⟨entry, exit, .epsilon⟩ ∈ A.transitions)
    (back : ⟨last, first, .epsilon⟩ ∈ A.transitions)
    (leave : ⟨last, exit, .epsilon⟩ ∈ A.transitions)
    (body : ∀ w ∈ L, A.Path first w last) {w : List Char} (hw : w ∈ L∗) :
    A.Path entry w exit := by
  rcases mem_kstar_cases hw with rfl | ⟨u, hu, v, hv, rfl⟩
  · exact edge_path bypass
  · have hround := (body u hu).append ((path_rounds back body hv).append (edge_path leave))
    rw [List.append_nil] at hround
    exact .skip enter hround

/-- A chain of bodies leads to the stop after as many of them as there are parts. -/
theorem chain_path {L : Language Char} (stop : Nat → Nat) {max : Nat}
    (body : ∀ i < max, ∀ w ∈ L, A.Path (stop i) w (stop (i + 1))) {n : Nat} (hn : n ≤ max)
    {w : List Char} (hw : w ∈ L ^ n) : A.Path (stop 0) w (stop n) := by
  induction n generalizing w with
  | zero =>
    rw [pow_zero, Language.mem_one] at hw
    rw [hw]
    exact .refl _
  | succ n ih =>
    rw [pow_succ, Language.mem_mul] at hw
    obtain ⟨u, hu, v, hv, rfl⟩ := hw
    exact (ih (by omega) hu).append (body n (by omega) v hv)

/-! ## 2. Fragments -/

/-- The edges of a repetition are those of its copies and those that leave early. -/
theorem times_subset {t : Term} {min max : Nat} {ordered : min < max} {T : List Transition}
    (hsub : (fragment (.times t min max ordered) next entry exit).transitions ⊆ T) :
    (∀ i < max, (copy t next max entry exit i).transitions ⊆ T) ∧
      ∀ n, min ≤ n → n < max → ⟨boundary next (interior t) max entry exit n, exit, .epsilon⟩ ∈ T := by
  rw [transitions_times, List.append_subset] at hsub
  constructor
  · intro i hi e he
    exact hsub.1 (List.mem_flatMap.2 ⟨i, List.mem_range.2 hi, he⟩)
  · intro n hmin hmax
    exact hsub.2 (List.mem_map.2 ⟨n, List.mem_range'_1.2 (by omega), rfl⟩)

/-- A fragment leads from its entry to its exit by every text that its term matches. -/
theorem path_of_mem_language {t : Term}
    (hsub : (fragment t next entry exit).transitions ⊆ A.transitions)
    {w : List Char} (hw : w ∈ t.language) : A.Path entry w exit := by
  induction t generalizing next entry exit w with
  | epsilon =>
    rw [transitions_epsilon, List.cons_subset] at hsub
    obtain rfl := (Language.mem_one w).1 hw
    exact edge_path hsub.1
  | one cls =>
    rw [transitions_one, List.cons_subset] at hsub
    obtain ⟨c, hc, rfl⟩ := hw
    exact .consume hsub.1 hc (.refl _)
  | seq l r ihl ihr =>
    rw [transitions_seq, List.append_subset, List.append_subset, List.cons_subset] at hsub
    obtain ⟨⟨hl, hr⟩, hjoin, -⟩ := hsub
    obtain ⟨u, hu, v, hv, rfl⟩ := Language.mem_mul.1 hw
    exact (ihl hl hu).append (.skip hjoin (ihr hr hv))
  | alt l r ihl ihr =>
    rw [transitions_alt, List.append_subset, List.append_subset] at hsub
    simp only [List.cons_subset] at hsub
    obtain ⟨⟨hl, hr⟩, enterLeft, enterRight, leaveLeft, leaveRight, -⟩ := hsub
    rcases (Language.mem_add _ _ w).1 hw with hw | hw
    · have hleft := (ihl hl hw).append (edge_path leaveLeft)
      rw [List.append_nil] at hleft
      exact .skip enterLeft hleft
    · have hright := (ihr hr hw).append (edge_path leaveRight)
      rw [List.append_nil] at hright
      exact .skip enterRight hright
  | star t ih =>
    rw [transitions_star, List.append_subset] at hsub
    simp only [List.cons_subset] at hsub
    obtain ⟨ht, enter, bypass, back, leave, -⟩ := hsub
    exact star_path_exit enter bypass back leave (fun w hw => ih ht hw) hw
  | times t min max ordered ih =>
    have ⟨hcopies, hleave⟩ := times_subset hsub
    obtain ⟨n, hmin, hmax, hw⟩ := hw
    have hchain := chain_path (boundary next (interior t) max entry exit)
      (fun i hi w hw => ih (hcopies i hi) hw) hmax hw
    rw [boundary_zero] at hchain
    rcases Nat.lt_or_ge n max with hlt | hge
    · -- Fewer copies than the greatest number leave the chain early.
      have hexit := hchain.append (edge_path (hleave n hmin hlt))
      rwa [List.append_nil] at hexit
    · obtain rfl : n = max := Nat.le_antisymm hmax hge
      rwa [boundary_max (by omega)] at hchain
  | labeled label t ih => exact ih hsub hw

/-- A fragment leads from its entry to some state by every text that can be read into its term. -/
theorem exists_path_of_mem_consumable {t : Term}
    (hsub : (fragment t next entry exit).transitions ⊆ A.transitions)
    {w : List Char} (hw : w ∈ t.consumable) : ∃ q, A.Path entry w q := by
  induction t generalizing next entry exit w with
  | epsilon =>
    obtain rfl := (Language.mem_one w).1 hw
    exact ⟨entry, .refl entry⟩
  | one cls =>
    rcases (Language.mem_add _ _ w).1 hw with hw | hw
    · obtain rfl := (Language.mem_one w).1 hw
      exact ⟨entry, .refl entry⟩
    · exact ⟨exit, path_of_mem_language (t := .one cls) hsub hw⟩
  | seq l r ihl ihr =>
    rw [transitions_seq, List.append_subset, List.append_subset, List.cons_subset] at hsub
    obtain ⟨⟨hl, hr⟩, hjoin, -⟩ := hsub
    rcases (Language.mem_add _ _ w).1 hw with hw | hw
    · exact ihl hl hw
    · obtain ⟨u, hu, v, hv, rfl⟩ := Language.mem_mul.1 hw
      obtain ⟨q, hright⟩ := ihr hr hv
      exact ⟨q, (path_of_mem_language hl hu).append (.skip hjoin hright)⟩
  | alt l r ihl ihr =>
    rw [transitions_alt, List.append_subset, List.append_subset] at hsub
    simp only [List.cons_subset] at hsub
    obtain ⟨⟨hl, hr⟩, enterLeft, enterRight, -⟩ := hsub
    rcases (Language.mem_add _ _ w).1 hw with hw | hw
    · obtain ⟨q, hleft⟩ := ihl hl hw
      exact ⟨q, .skip enterLeft hleft⟩
    · obtain ⟨q, hright⟩ := ihr hr hw
      exact ⟨q, .skip enterRight hright⟩
  | star t ih =>
    rw [transitions_star, List.append_subset] at hsub
    simp only [List.cons_subset] at hsub
    obtain ⟨ht, enter, -, back, -⟩ := hsub
    -- The text ends inside the round after those that are complete.
    obtain ⟨u, hu, v, hv, rfl⟩ := Language.mem_mul.1 hw
    have hfirst := star_path_first enter back (fun w hw => path_of_mem_language ht hw) hu
    obtain ⟨q, hbody⟩ := ih ht hv
    exact ⟨q, hfirst.append hbody⟩
  | times t min max ordered ih =>
    have ⟨hcopies, _⟩ := times_subset hsub
    -- The text ends inside the copy after those that are complete.
    obtain ⟨n, hn, hw⟩ := hw
    obtain ⟨u, hu, v, hv, rfl⟩ := Language.mem_mul.1 hw
    have hchain := chain_path (boundary next (interior t) max entry exit)
      (fun i hi w hw => path_of_mem_language (hcopies i hi) hw) (Nat.le_of_lt hn) hu
    obtain ⟨q, hbody⟩ := ih (hcopies n hn) hv
    exact ⟨q, hchain.append hbody⟩
  | labeled label t ih => exact ih hsub hw

end Thompson

end JsonAutomata
