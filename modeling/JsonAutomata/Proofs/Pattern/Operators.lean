import JsonAutomata.Proofs.Thompson.Correctness

/-!
# Consumable texts of the derived operators

What can be read into a concatenation, a choice or a literal, and what the characters of such texts
are.  Every prefix of a consumable text is consumable, so its first character is, by itself
(`singleton_mem_consumable_concat`).
-/

open Computability

namespace JsonAutomata

/-! ## 1. Ranges -/

theorem CharClass.mem_range {first last c : Char} {name : String} :
    c ∈ (range first last name).accepted ↔ first ≤ c ∧ c ≤ last := by
  have hle : ∀ a b : Char, a ≤ b ↔ a.toNat ≤ b.toNat := fun a b => Iff.rfl
  have hvalid : c.toNat.isValidChar := c.valid
  rw [range, mem_ofChars, List.mem_map, hle, hle]
  constructor
  · rintro ⟨n, hn, rfl⟩
    obtain ⟨hrange, hn⟩ := List.mem_filter.1 hn
    have hcode : (Char.ofNat n).toNat = n := by
      rw [Char.ofNat, dif_pos (of_decide_eq_true hn)]
      rfl
    rw [hcode]
    rw [List.mem_range'_1] at hrange
    omega
  · rintro ⟨hfirst, hlast⟩
    refine ⟨c.toNat, List.mem_filter.2 ⟨?_, decide_eq_true hvalid⟩, Char.ofNat_toNat c⟩
    rw [List.mem_range'_1]
    omega

namespace Term

variable {t : Term} {ts : List Term} {v w : List Char} {c : Char}

/-! ## 2. Prefixes -/

theorem consumable_of_append (h : v ++ w ∈ t.consumable) : v ∈ t.consumable := by
  have hiff : ∀ x, (∃ q, (Thompson.fragment t 2 0 1).Path 0 x q) ↔ x ∈ t.consumable :=
    fun x => Thompson.exists_path_iff (by decide) (by decide) (by decide)
  obtain ⟨q, path⟩ := (hiff _).2 h
  obtain ⟨r, hv, _⟩ := Automaton.path_append_iff.1 path
  exact (hiff v).1 ⟨r, hv⟩

/-! ## 3. Operators -/

theorem consumable_concat_cons :
    (concat (t :: ts)).consumable = t.consumable + t.language * (concat ts).consumable := by
  cases ts with
  | nil =>
    rw [concat, concat, consumable, mul_one]
    exact (sup_eq_left.2 t.language_le_consumable).symm
  | cons u us =>
    rw [concat, consumable]
    exact List.cons_ne_nil u us

theorem mem_consumable_choice_cons :
    w ∈ (choice (t :: ts)).consumable ↔
      w ∈ t.consumable ∨ ts ≠ [] ∧ w ∈ (choice ts).consumable := by
  cases ts with
  | nil => simp [choice]
  | cons u us =>
    rw [choice, consumable, Language.mem_add]
    · simp
    · exact List.cons_ne_nil u us

theorem mem_language_choice_cons :
    w ∈ (choice (t :: ts)).language ↔ w ∈ t.language ∨ w ∈ (choice ts).language := by
  rw [language_choice, language_choice, List.map_cons, List.sum_cons, Language.mem_add]

theorem not_mem_language_choice_nil : ¬ w ∈ (choice []).language := by
  rw [choice, language_oneOf_nil]
  exact Set.notMem_empty w

theorem mem_language_concat_cons :
    w ∈ (concat (t :: ts)).language ↔
      ∃ u ∈ t.language, ∃ v ∈ (concat ts).language, u ++ v = w := by
  rw [language_concat, language_concat, List.map_cons, List.prod_cons, Language.mem_mul]

theorem mem_language_concat_nil : w ∈ (concat []).language ↔ w = [] := Language.mem_one w

theorem mem_consumable_concat_cons :
    w ∈ (concat (t :: ts)).consumable ↔
      w ∈ t.consumable ∨ ∃ u ∈ t.language, ∃ v ∈ (concat ts).consumable, u ++ v = w := by
  rw [consumable_concat_cons, Language.mem_add, Language.mem_mul]

theorem mem_consumable_concat_singleton : w ∈ (concat [t]).consumable ↔ w ∈ t.consumable :=
  Iff.rfl

/-- A concatenation begins like its first part, or like the rest if that may be empty. -/
theorem singleton_mem_consumable_concat (h : [c] ∈ (concat (t :: ts)).consumable) :
    [c] ∈ t.consumable ∨ [] ∈ t.language ∧ [c] ∈ (concat ts).consumable := by
  rcases mem_consumable_concat_cons.1 h with h | ⟨u, hu, v, hv, heq⟩
  · exact .inl h
  · rcases List.append_eq_singleton_iff.1 heq with ⟨rfl, rfl⟩ | ⟨rfl, rfl⟩
    · exact .inr ⟨hu, hv⟩
    · exact .inl (t.language_le_consumable hu)

theorem mem_language_one {cls : CharClass} :
    w ∈ (one cls).language ↔ ∃ c ∈ cls.accepted, w = [c] := by
  simp only [language, CharClass.mem_language, CharClass.accepts_iff]

theorem mem_consumable_one {cls : CharClass} :
    w ∈ (one cls).consumable ↔ w = [] ∨ ∃ c ∈ cls.accepted, w = [c] := by
  rw [consumable, Language.mem_add, Language.mem_one, CharClass.mem_language]
  simp only [CharClass.accepts_iff]

theorem mem_language_oneOf {chars : List Char} {name : String} :
    w ∈ (oneOf chars name).language ↔ ∃ c ∈ chars, w = [c] := by
  simp only [oneOf, mem_language_one, CharClass.mem_ofChars]

theorem mem_consumable_oneOf {chars : List Char} {name : String} :
    w ∈ (oneOf chars name).consumable ↔ w = [] ∨ ∃ c ∈ chars, w = [c] := by
  simp only [oneOf, mem_consumable_one, CharClass.mem_ofChars]

theorem mem_language_literal {s : List Char} : w ∈ (literal s).language ↔ w = s := by
  rw [language_literal]
  rfl

theorem mem_language_optional : w ∈ t.optional.language ↔ w ∈ t.language ∨ w = [] := by
  rw [language_optional, Language.mem_add, Language.mem_one]

theorem mem_language_star_one {cls : CharClass} :
    w ∈ (star (one cls)).language ↔ ∀ c ∈ w, c ∈ cls.accepted := by
  constructor
  · rintro ⟨parts, rfl, hparts⟩ c hc
    obtain ⟨part, hpart, hc⟩ := List.mem_flatten.1 hc
    obtain ⟨d, hd, rfl⟩ := mem_language_one.1 (hparts part hpart)
    exact List.mem_singleton.1 hc ▸ hd
  · intro h
    refine ⟨w.map fun c => [c], ?_, fun part hpart => ?_⟩
    · rw [← List.flatMap_def, List.flatMap_singleton']
    · obtain ⟨c, hc, rfl⟩ := List.mem_map.1 hpart
      exact mem_language_one.2 ⟨c, h c hc, rfl⟩

theorem mem_language_plus_one {cls : CharClass} :
    w ∈ (one cls).plus.language ↔ w ≠ [] ∧ ∀ c ∈ w, c ∈ cls.accepted := by
  rw [language_plus, Language.mem_mul]
  constructor
  · rintro ⟨u, hu, v, hv, rfl⟩
    obtain ⟨c, hc, rfl⟩ := mem_language_one.1 hu
    refine ⟨List.cons_ne_nil c v, fun d hd => ?_⟩
    rcases List.mem_cons.1 hd with rfl | hd
    · exact hc
    · exact mem_language_star_one.1 hv d hd
  · rintro ⟨hne, h⟩
    obtain ⟨c, v, rfl⟩ := List.exists_cons_of_ne_nil hne
    refine ⟨[c], mem_language_one.2 ⟨c, h c List.mem_cons_self, rfl⟩, v, ?_, rfl⟩
    exact mem_language_star_one.2 fun d hd => h d (List.mem_cons_of_mem c hd)

/-- What can be read into a literal are its prefixes. -/
theorem mem_consumable_literal {s : List Char} : w ∈ (literal s).consumable ↔ w <+: s := by
  induction s generalizing w with
  | nil => exact (Language.mem_one w).trans List.prefix_nil.symm
  | cons d s ih =>
    rw [literal, List.map_cons, mem_consumable_concat_cons, mem_consumable_one]
    simp only [CharClass.mem_single, exists_eq_left, mem_language_one]
    rw [List.prefix_cons_iff]
    constructor
    · rintro ((rfl | rfl) | ⟨v, hv, rfl⟩)
      · exact .inl rfl
      · exact .inr ⟨[], rfl, List.nil_prefix⟩
      · exact .inr ⟨v, rfl, ih.1 hv⟩
    · rintro (rfl | ⟨v, rfl, hv⟩)
      · exact .inl (.inl rfl)
      · exact .inr ⟨v, ih.2 hv, rfl⟩

theorem mem_consumable_literal_singleton : w ∈ (literal [c]).consumable ↔ w = [] ∨ w = [c] := by
  rw [mem_consumable_literal, List.prefix_cons_iff]
  simp only [List.prefix_nil, exists_eq_right]

/-! ## 4. Characters -/

def Over (P : Char → Prop) : Term → Prop
  | epsilon => True
  | one cls => ∀ c ∈ cls.accepted, P c
  | seq l r => l.Over P ∧ r.Over P
  | alt l r => l.Over P ∧ r.Over P
  | star t => t.Over P
  | times t _ _ _ => t.Over P
  | labeled _ t => t.Over P

variable {P : Char → Prop}

def textsOver (P : Char → Prop) : Language Char := {w | ∀ c ∈ w, P c}

theorem textsOver_mul_le {L M : Language Char} (hL : L ≤ textsOver P) (hM : M ≤ textsOver P) :
    L * M ≤ textsOver P := by
  intro w hw
  obtain ⟨u, hu, v, hv, rfl⟩ := Language.mem_mul.1 hw
  intro c hc
  rcases List.mem_append.1 hc with hc | hc
  · exact hL hu c hc
  · exact hM hv c hc

theorem one_le_textsOver : 1 ≤ textsOver P := by
  intro w hw c hc
  rw [(Language.mem_one w).1 hw] at hc
  exact absurd hc List.not_mem_nil

theorem textsOver_pow_le {L : Language Char} (hL : L ≤ textsOver P) (n : Nat) :
    L ^ n ≤ textsOver P := by
  induction n with
  | zero =>
    rw [pow_zero]
    exact one_le_textsOver
  | succ n ih =>
    rw [pow_succ]
    exact textsOver_mul_le ih hL

theorem textsOver_kstar_le {L : Language Char} (hL : L ≤ textsOver P) : L∗ ≤ textsOver P := by
  rintro w ⟨parts, rfl, hparts⟩ c hc
  obtain ⟨part, hpart, hc⟩ := List.mem_flatten.1 hc
  exact hL (hparts part hpart) c hc

theorem Over.language_le (h : t.Over P) : t.language ≤ textsOver P := by
  induction t with
  | epsilon => exact one_le_textsOver
  | one cls =>
    rintro w ⟨c, hc, rfl⟩ d hd
    rw [List.mem_singleton.1 hd]
    exact h c (CharClass.accepts_iff.1 hc)
  | seq l r ihl ihr => exact textsOver_mul_le (ihl h.1) (ihr h.2)
  | alt l r ihl ihr => exact sup_le (ihl h.1) (ihr h.2)
  | star t ih => exact textsOver_kstar_le (ih h)
  | times t min max _ ih =>
    rintro w ⟨n, -, -, hw⟩
    exact textsOver_pow_le (ih h) n hw
  | labeled _ t ih => exact ih h

theorem Over.consumable_le (h : t.Over P) : t.consumable ≤ textsOver P := by
  induction t with
  | epsilon => exact one_le_textsOver
  | one cls => exact sup_le one_le_textsOver (Over.language_le (t := one cls) h)
  | seq l r ihl ihr => exact sup_le (ihl h.1) (textsOver_mul_le h.1.language_le (ihr h.2))
  | alt l r ihl ihr => exact sup_le (ihl h.1) (ihr h.2)
  | star t ih => exact textsOver_mul_le (textsOver_kstar_le (Over.language_le (t := t) h)) (ih h)
  | times t min max _ ih =>
    rintro w ⟨n, -, hw⟩
    have hpow := textsOver_pow_le (Over.language_le (t := t) h) n
    exact textsOver_mul_le hpow (ih h) hw
  | labeled _ t ih => exact ih h

end Term

end JsonAutomata
