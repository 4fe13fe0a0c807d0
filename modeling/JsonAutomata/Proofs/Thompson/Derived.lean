import JsonAutomata.Proofs.Pattern.Operators

/-!
# Derived operators — what they denote once compiled

The derived operators are built from sequence, choice and repetition alone, so terms without labels
stay without labels, and under a label the compiled automaton accepts the language of the whole
(`Builder.accepts_group`).  What this language is, is said on texts: products in order, unions, and
texts made of so many parts (`Repeats`).
-/

open Computability

namespace JsonAutomata

namespace Term

variable {t u : Term} {ts : List Term} {w : List Char} {n min max : Nat}
  {nested : List Term → Term} {combine : Term → Term → Term}

/-! ## 1. Nesting -/

theorem nested_append_singleton (hone : ∀ u, nested [u] = u)
    (hcons : ∀ u v us, nested (u :: v :: us) = combine u (nested (v :: us))) (ts : List Term)
    (t : Term) : nested (ts ++ [t]) = ts.foldr combine t := by
  induction ts with
  | nil => exact hone t
  | cons u us ih =>
    rw [List.foldr_cons, ← ih]
    cases us with
    | nil => exact hcons u t []
    | cons v us => exact hcons u v (us ++ [t])

/-- A concatenation nests to the right, from its last term on. -/
theorem concat_append_singleton (ts : List Term) (t : Term) :
    concat (ts ++ [t]) = ts.foldr seq t :=
  nested_append_singleton (fun _ => rfl) (fun _ _ _ => rfl) ts t

/-- A choice nests to the right, from its last term on. -/
theorem choice_append_singleton (ts : List Term) (t : Term) :
    choice (ts ++ [t]) = ts.foldr alt t :=
  nested_append_singleton (fun _ => rfl) (fun _ _ _ => rfl) ts t

/-! ## 2. Terms without labels -/

/-- An operator on lists that nests a binary one keeps terms plain if the binary one does. -/
theorem isPlain_nested (hnil : (nested []).isPlain = true)
    (happend : ∀ us u, nested (us ++ [u]) = us.foldr combine u)
    (hcombine : ∀ l r, l.isPlain = true → r.isPlain = true → (combine l r).isPlain = true)
    (hts : ∀ u ∈ ts, u.isPlain = true) : (nested ts).isPlain = true := by
  -- The list is taken apart at its end, where the nesting begins.
  rcases List.eq_nil_or_concat ts with rfl | ⟨us, u, rfl⟩
  · exact hnil
  · rw [List.concat_eq_append] at hts ⊢
    rw [happend]
    have hinit : ∀ v ∈ us, v.isPlain = true := fun v hv => hts v (by simp [hv])
    exact List.foldrRecOn us combine (hts u (by simp)) fun r hr l hl => hcombine l r (hinit l hl) hr

theorem isPlain_concat (h : ∀ u ∈ ts, u.isPlain = true) : (concat ts).isPlain = true :=
  isPlain_nested rfl concat_append_singleton
    (fun _ _ hl hr => Bool.and_eq_true_iff.2 ⟨hl, hr⟩) h

theorem isPlain_choice (h : ∀ u ∈ ts, u.isPlain = true) : (choice ts).isPlain = true :=
  isPlain_nested rfl choice_append_singleton
    (fun _ _ hl hr => Bool.and_eq_true_iff.2 ⟨hl, hr⟩) h

theorem isPlain_exactly (h : t.isPlain = true) (n : Nat) : (t.exactly n).isPlain = true :=
  isPlain_concat fun _ hu => (List.eq_of_mem_replicate hu) ▸ h

theorem isPlain_literal (s : List Char) : (literal s).isPlain = true := by
  refine isPlain_concat fun u hu => ?_
  obtain ⟨c, -, rfl⟩ := List.mem_map.1 hu
  rfl

theorem unlabeled_of_isPlain (h : t.isPlain = true) : t.unlabeled = t := by
  cases t with
  | labeled label t => cases h
  | _ => rfl

/-! ## 3. Languages on texts -/

def Repeats (t : Term) (n : Nat) (w : List Char) : Prop :=
  ∃ parts : List (List Char), parts.length = n ∧ (∀ x ∈ parts, x ∈ t.language) ∧ w = parts.flatten

theorem mem_pow_iff : w ∈ t.language ^ n ↔ t.Repeats n w := by
  rw [Language.mem_pow]
  constructor
  · rintro ⟨parts, hw, hlength, hparts⟩
    exact ⟨parts, hlength, hparts, hw⟩
  · rintro ⟨parts, hlength, hparts, hw⟩
    exact ⟨parts, hw, hlength, hparts⟩

theorem mem_language_concat_iff :
    w ∈ (concat ts).language ↔
      ∃ parts, List.Forall₂ (fun x u => x ∈ u.language) parts ts ∧ w = parts.flatten := by
  induction ts generalizing w with
  | nil =>
    rw [mem_language_concat_nil]
    constructor
    · rintro rfl
      exact ⟨[], .nil, rfl⟩
    · rintro ⟨parts, hparts, rfl⟩
      cases hparts
      rfl
  | cons t ts ih =>
    rw [mem_language_concat_cons]
    simp only [ih]
    constructor
    · rintro ⟨x, hx, _, ⟨parts, hparts, rfl⟩, rfl⟩
      exact ⟨x :: parts, .cons hx hparts, rfl⟩
    · rintro ⟨_, hparts, rfl⟩
      cases hparts with
      | @cons x _ parts _ hx hparts => exact ⟨x, hx, _, ⟨parts, hparts, rfl⟩, rfl⟩

theorem mem_language_choice_iff : w ∈ (choice ts).language ↔ ∃ u ∈ ts, w ∈ u.language := by
  induction ts with
  | nil => simp [not_mem_language_choice_nil]
  | cons t ts ih => rw [mem_language_choice_cons, ih, List.exists_mem_cons_iff]

theorem mem_language_plus_iff : w ∈ t.plus.language ↔ ∃ n, 1 ≤ n ∧ t.Repeats n w := by
  rw [language_plus, Language.mem_mul]
  constructor
  · rintro ⟨x, hx, _, ⟨parts, rfl, hparts⟩, rfl⟩
    refine ⟨parts.length + 1, by omega, x :: parts, rfl, fun y hy => ?_, rfl⟩
    rcases List.mem_cons.1 hy with rfl | hy
    · exact hx
    · exact hparts y hy
  · rintro ⟨n, hn, parts, rfl, hparts, rfl⟩
    cases parts with
    | nil => exact absurd hn (by decide)
    | cons x parts =>
      have hrest : ∀ y ∈ parts, y ∈ t.language := fun y hy => hparts y (List.mem_cons_of_mem x hy)
      exact ⟨x, hparts x List.mem_cons_self, parts.flatten, ⟨parts, rfl, hrest⟩, rfl⟩

theorem mem_language_optional_iff : w ∈ t.optional.language ↔ ∃ n, n ≤ 1 ∧ t.Repeats n w := by
  have hcases : (∃ n, n ≤ 1 ∧ t.Repeats n w) ↔ t.Repeats 0 w ∨ t.Repeats 1 w := by
    constructor
    · rintro ⟨n, hn, h⟩
      rcases Nat.le_one_iff_eq_zero_or_eq_one.1 hn with rfl | rfl
      · exact .inl h
      · exact .inr h
    · rintro (h | h)
      · exact ⟨0, by decide, h⟩
      · exact ⟨1, by decide, h⟩
  rw [hcases, ← mem_pow_iff, ← mem_pow_iff, pow_zero, pow_one, mem_language_optional,
    Language.mem_one, or_comm]

/-- A repetition within bounds is refused if they are in the wrong order, and only then. -/
theorem between_cases (t : Term) (min max : Nat) :
    (max < min ∧ t.between min max = .error ⟨min, max⟩) ∨
      (min ≤ max ∧ ∃ u, t.between min max = .ok u ∧ (t.isPlain = true → u.isPlain = true)) := by
  unfold between
  rcases Nat.lt_trichotomy min max with hlt | rfl | hgt
  · rw [dif_pos hlt]
    exact .inr ⟨Nat.le_of_lt hlt, _, rfl, id⟩
  · rw [dif_neg (Nat.lt_irrefl _), if_pos rfl]
    exact .inr ⟨Nat.le_refl _, _, rfl, fun h => isPlain_exactly h _⟩
  · rw [dif_neg (Nat.lt_asymm hgt), if_neg (Nat.ne_of_gt hgt)]
    exact .inl ⟨hgt, rfl⟩

end Term

namespace Builder

open Term

variable {t : Term} {w : List Char}

theorem accepts_group (h : t.isPlain = true) (b : Builder) (label : Label) :
    (b.build (t.group label)).1.accepts w = true ↔ w ∈ t.language := by
  have hflat : (t.group label).isFlat = true := by
    rw [isFlat, group, unlabeled, unlabeled_of_isPlain h, h]
  rw [accepts_build _ b w rfl hflat, language_group]

/-- Compiled under a label, a concatenation of terms without labels accepts the texts of its terms
in order, a choice those of any of its terms, and the other operators of a term accept texts made of
at least one part, of at most one, of exactly `n`, and of `min` to `max` parts that the term matches.
The last operator fails if `min` exceeds `max`, and only then.  A literal accepts its own text. -/
theorem derived_operators_denote {ts : List Term} (ht : t.isPlain = true)
    (hts : ∀ u ∈ ts, u.isPlain = true) (b : Builder) (label : Label) (w : List Char) :
    ((b.build ((concat ts).group label)).1.accepts w = true ↔
      ∃ parts, List.Forall₂ (fun x u => x ∈ u.language) parts ts ∧ w = parts.flatten) ∧
    ((b.build ((choice ts).group label)).1.accepts w = true ↔ ∃ u ∈ ts, w ∈ u.language) ∧
    ((b.build (t.plus.group label)).1.accepts w = true ↔ ∃ n, 1 ≤ n ∧ t.Repeats n w) ∧
    ((b.build (t.optional.group label)).1.accepts w = true ↔ ∃ n, n ≤ 1 ∧ t.Repeats n w) ∧
    (∀ n, (b.build ((t.exactly n).group label)).1.accepts w = true ↔ t.Repeats n w) ∧
    (∀ s, (b.build ((literal s).group label)).1.accepts w = true ↔ w = s) ∧
    ∀ min max, (max < min ∧ t.between min max = .error ⟨min, max⟩) ∨
      (min ≤ max ∧ ∃ u, t.between min max = .ok u ∧
        ((b.build (u.group label)).1.accepts w = true ↔
          ∃ n, min ≤ n ∧ n ≤ max ∧ t.Repeats n w)) := by
  have hplus : t.plus.isPlain = true := Bool.and_eq_true_iff.2 ⟨ht, ht⟩
  have hoptional : t.optional.isPlain = true := Bool.and_eq_true_iff.2 ⟨ht, rfl⟩
  refine ⟨?_, ?_, ?_, ?_, fun n => ?_, fun s => ?_, fun min max => ?_⟩
  · rw [accepts_group (isPlain_concat hts), mem_language_concat_iff]
  · rw [accepts_group (isPlain_choice hts), mem_language_choice_iff]
  · rw [accepts_group hplus, mem_language_plus_iff]
  · rw [accepts_group hoptional, mem_language_optional_iff]
  · rw [accepts_group (isPlain_exactly ht n), language_exactly, mem_pow_iff]
  · rw [accepts_group (isPlain_literal s), mem_language_literal]
  · rcases between_cases t min max with h | ⟨hle, u, hu, hplain⟩
    · exact .inl h
    · refine .inr ⟨hle, u, hu, ?_⟩
      rw [accepts_group (hplain ht), mem_language_between hu]
      simp only [mem_pow_iff]

/-- Rounds of one or two letters overlap: three letters are two or three rounds, but not one. -/
theorem derived_operators_denote_overlapping :
    let round : Term := .choice [.literal ['a'], .literal ['a', 'a']]
    round.isPlain = true ∧ (∀ u ∈ [round, round.optional], u.isPlain = true) ∧
      (∃ n, 2 ≤ n ∧ n ≤ 3 ∧ round.Repeats n ['a', 'a', 'a']) ∧
      ¬ round.Repeats 1 ['a', 'a', 'a'] ∧
      ∃ parts, List.Forall₂ (fun x u => x ∈ u.language) parts [round, round.optional] ∧
        ['a', 'a', 'a'] = parts.flatten := by
  intro round
  have hround : round.isPlain = true := by decide
  have hrounds : ∀ u ∈ [round, round.optional], u.isPlain = true := by decide
  obtain ⟨hconcat, -, -, -, hexactly, -, hbetween⟩ :=
    derived_operators_denote hround hrounds ⟨3⟩ "rounds" ['a', 'a', 'a']
  refine ⟨hround, hrounds, ?_, fun h => ?_, hconcat.1 (by decide)⟩
  · rcases hbetween 2 3 with ⟨hlt, -⟩ | ⟨-, u, hu, haccepts⟩
    · exact absurd hlt (by decide)
    · cases hu
      exact haccepts.1 (by decide)
  · exact absurd ((hexactly 1).2 h) (by decide)

end Builder

end JsonAutomata
