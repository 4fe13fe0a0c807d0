import JsonAutomata.Proofs.Number.Digits
import Mathlib.Algebra.Order.Field.Rat
import Mathlib.Algebra.Order.GroupWithZero.Basic

/-!
# Spelling — which texts spell which decimals

A decimal is a sign, digits before and behind a point, and an exponent.  `Spells` is the grammar of
JSON numbers with the decimal that a text spells, so it says which value a number has
(`numberText_iff_spells`, `Decimal.value`).  `SpellsLoosely` is the grammar that equality of numbers
reads: zeros may lead, the digits behind a point may be missing, and a plus sign may stand in front
of the sign of an exponent.  A text spells at most one decimal, loosely or not, and
`Decimal.read?` finds it (`read?_eq_some_iff`).
-/

namespace JsonAutomata

/-- A number by its parts: `± whole.fraction * 10 ^ exponent`. -/
structure Decimal where
  negative : Bool
  whole : List Char
  fraction : List Char
  exponent : Int
deriving DecidableEq, Repr

def signFactor (negative : Bool) : ℚ := if negative then -1 else 1

def Decimal.digits (d : Decimal) : List Char := d.whole ++ d.fraction

def Decimal.value (d : Decimal) : ℚ :=
  signFactor d.negative
    * (digitsValue d.whole + digitsValue d.fraction / 10 ^ d.fraction.length) * 10 ^ d.exponent

namespace Grammar

/-! ## 1. The grammar of numbers, with values -/

/-- The text is a fraction, or nothing, with these digits. -/
inductive FractionOf : List Char → List Char → Prop
  | none : FractionOf [] []
  | point {ds : List Char} (h : Digits ds) : FractionOf ('.' :: ds) ds

inductive ExponentOf : List Char → Int → Prop
  | none : ExponentOf [] 0
  | unsigned {mark : Char} {ds : List Char} (hmark : mark = 'e' ∨ mark = 'E') (h : Digits ds) :
      ExponentOf (mark :: ds) (digitsValue ds)
  | plus {mark : Char} {ds : List Char} (hmark : mark = 'e' ∨ mark = 'E') (h : Digits ds) :
      ExponentOf (mark :: '+' :: ds) (digitsValue ds)
  | minus {mark : Char} {ds : List Char} (hmark : mark = 'e' ∨ mark = 'E') (h : Digits ds) :
      ExponentOf (mark :: '-' :: ds) (-digitsValue ds)

def Spells (w : List Char) (d : Decimal) : Prop :=
  ∃ point exponent, w = (if d.negative then ['-'] else []) ++ (d.whole ++ (point ++ exponent)) ∧
    Whole d.whole ∧ FractionOf point d.fraction ∧ ExponentOf exponent d.exponent

def Denotes (w : List Char) (q : ℚ) : Prop := ∃ d, Spells w d ∧ d.value = q

theorem fraction_iff_exists {w : List Char} : Fraction w ↔ ∃ ds, FractionOf w ds := by
  constructor
  · rintro (rfl | ⟨ds, rfl, hds⟩)
    · exact ⟨[], .none⟩
    · exact ⟨ds, .point hds⟩
  · rintro ⟨ds, h⟩
    cases h with
    | none => exact .inl rfl
    | point hds => exact .inr ⟨ds, rfl, hds⟩

theorem exponent_iff_exists {w : List Char} : Exponent w ↔ ∃ e, ExponentOf w e := by
  constructor
  · rintro (rfl | ⟨mark, sign, ds, rfl, hmark, rfl | rfl | rfl, hds⟩)
    · exact ⟨0, .none⟩
    · exact ⟨_, .unsigned hmark hds⟩
    · exact ⟨_, .plus hmark hds⟩
    · exact ⟨_, .minus hmark hds⟩
  · rintro ⟨e, h⟩
    cases h with
    | none => exact .inl rfl
    | unsigned hmark hds => exact .inr ⟨_, [], _, rfl, hmark, .inl rfl, hds⟩
    | plus hmark hds => exact .inr ⟨_, ['+'], _, rfl, hmark, .inr (.inl rfl), hds⟩
    | minus hmark hds => exact .inr ⟨_, ['-'], _, rfl, hmark, .inr (.inr rfl), hds⟩

theorem numberText_iff_spells {w : List Char} : NumberText w ↔ ∃ d, Spells w d := by
  constructor
  · rintro ⟨sign, whole, fraction, exponent, rfl, hsign, hwhole, hfraction, hexponent⟩
    obtain ⟨ds, hds⟩ := fraction_iff_exists.1 hfraction
    obtain ⟨e, he⟩ := exponent_iff_exists.1 hexponent
    rcases hsign with rfl | rfl
    · exact ⟨⟨false, whole, ds, e⟩, fraction, exponent, rfl, hwhole, hds, he⟩
    · exact ⟨⟨true, whole, ds, e⟩, fraction, exponent, rfl, hwhole, hds, he⟩
  · rintro ⟨d, point, exponent, rfl, hwhole, hfraction, hexponent⟩
    refine ⟨_, d.whole, point, exponent, rfl, ?_, hwhole, fraction_iff_exists.2 ⟨_, hfraction⟩,
      exponent_iff_exists.2 ⟨_, hexponent⟩⟩
    cases d.negative with
    | false => exact .inl rfl
    | true => exact .inr rfl

/-! ## 2. The looser grammar that equality reads -/

inductive LooseFraction : List Char → List Char → Prop
  | none : LooseFraction [] []
  | point {ds : List Char} (h : ∀ c ∈ ds, IsDigit c) : LooseFraction ('.' :: ds) ds

theorem LooseFraction.digits {w ds : List Char} (h : LooseFraction w ds) :
    ∀ c ∈ ds, IsDigit c := by
  cases h with
  | none => exact fun c hc => absurd hc List.not_mem_nil
  | point hds => exact hds

/-- The text is an exponent, but for one more plus sign behind the mark. -/
def LooseExponent (w : List Char) (e : Int) : Prop :=
  ExponentOf w e ∨ ∃ mark rest, w = mark :: '+' :: rest ∧ ExponentOf (mark :: rest) e

/-- The text has these parts; zeros may lead, a point may stand alone, a plus sign may be doubled. -/
def SpellsLoosely (w : List Char) (d : Decimal) : Prop :=
  ∃ point exponent, w = (if d.negative then ['-'] else []) ++ (d.whole ++ (point ++ exponent)) ∧
    Digits d.whole ∧ LooseFraction point d.fraction ∧ LooseExponent exponent d.exponent

theorem SpellsLoosely.isDigit_of_mem {w : List Char} {d : Decimal} (h : SpellsLoosely w d) :
    ∀ c ∈ d.digits, IsDigit c := by
  obtain ⟨point, exponent, -, hwhole, hfraction, -⟩ := h
  exact List.forall_mem_append.2 ⟨hwhole.2, hfraction.digits⟩

theorem Whole.digits {w : List Char} (h : Whole w) : Digits w := by
  rcases h with rfl | ⟨c, ds, rfl, -, h⟩
  · exact ⟨List.cons_ne_nil _ _, by simp [IsDigit]⟩
  · exact h

theorem FractionOf.loose {w ds : List Char} (h : FractionOf w ds) : LooseFraction w ds := by
  cases h with
  | none => exact .none
  | point hds => exact .point hds.2

theorem Spells.loosely {w : List Char} {d : Decimal} (h : Spells w d) : SpellsLoosely w d := by
  obtain ⟨point, exponent, hw, hwhole, hfraction, hexponent⟩ := h
  exact ⟨point, exponent, hw, hwhole.digits, hfraction.loose, .inl hexponent⟩

end Grammar

open Grammar

/-! ## 3. Reading exponents -/

theorem readNatural?_eq_some_iff {cs : List Char} {n : Nat} :
    readNatural? cs = some n ↔ Digits cs ∧ digitsValue cs = n := by
  have hdigits : (cs ≠ [] ∧ cs.all Char.isDigit = true) ↔ Digits cs :=
    and_congr_right fun _ => all_isDigit_iff
  unfold readNatural?
  constructor
  · intro h
    split at h
    · rename_i hread
      exact ⟨hdigits.1 hread, Option.some.inj h⟩
    · cases h
  · rintro ⟨hread, rfl⟩
    rw [if_pos (hdigits.2 hread)]

theorem readInteger?_of_digits {ds : List Char} (h : Digits ds) :
    readInteger? ds = some (digitsValue ds : Int) := by
  have hread : readNatural? ds = some (digitsValue ds) := readNatural?_eq_some_iff.2 ⟨h, rfl⟩
  unfold readInteger?
  -- A sign is no digit.
  split
  · exact absurd (isDigit_iff.2 (h.2 '+' List.mem_cons_self)) (by decide)
  · exact absurd (isDigit_iff.2 (h.2 '-' List.mem_cons_self)) (by decide)
  · rw [hread]
    rfl

theorem exponentOf_cons_iff {mark : Char} {rest : List Char} {e : Int} :
    ExponentOf (mark :: rest) e ↔ (mark = 'e' ∨ mark = 'E') ∧ readInteger? rest = some e := by
  constructor
  · intro h
    cases h with
    | unsigned hmark hds => exact ⟨hmark, readInteger?_of_digits hds⟩
    | plus hmark hds =>
      refine ⟨hmark, ?_⟩
      rw [readInteger?, readNatural?_eq_some_iff.2 ⟨hds, rfl⟩]
      rfl
    | minus hmark hds =>
      refine ⟨hmark, ?_⟩
      rw [readInteger?, readNatural?_eq_some_iff.2 ⟨hds, rfl⟩]
      rfl
  · rintro ⟨hmark, h⟩
    unfold readInteger? at h
    split at h
    all_goals
      obtain ⟨n, hn, rfl⟩ := Option.map_eq_some_iff.1 h
      obtain ⟨hds, rfl⟩ := readNatural?_eq_some_iff.1 hn
    · exact .plus hmark hds
    · exact .minus hmark hds
    · exact .unsigned hmark hds

def stripPlus : List Char → List Char
  | '+' :: rest => rest
  | rest => rest

theorem looseExponent_cons_iff {mark : Char} {rest : List Char} {e : Int} :
    LooseExponent (mark :: rest) e ↔
      (mark = 'e' ∨ mark = 'E') ∧ readInteger? (stripPlus rest) = some e := by
  unfold stripPlus
  split
  · rename_i digits
    constructor
    · rintro (h | ⟨_, _, heq, h⟩)
      · cases h with
        | unsigned _ hds =>
          exact absurd (isDigit_iff.2 (hds.2 '+' List.mem_cons_self)) (by decide)
        | plus hmark hds => exact ⟨hmark, readInteger?_of_digits hds⟩
      · cases heq
        exact exponentOf_cons_iff.1 h
    · exact fun h => .inr ⟨mark, digits, rfl, exponentOf_cons_iff.2 h⟩
  · rename_i hplus
    constructor
    · rintro (h | ⟨_, _, heq, -⟩)
      · exact exponentOf_cons_iff.1 h
      · cases heq
        exact absurd rfl (hplus _)
    · exact fun h => .inl (exponentOf_cons_iff.2 h)

/-! ## 4. Splitting a text -/

section Split

variable {p : Char → Bool} {before after : List Char} {c : Char}

theorem splitFirst_of_forall {cs : List Char} (h : ∀ c ∈ cs, p c = false) :
    splitFirst p cs = (cs, none) := by
  have hnot : ∀ c ∈ cs, (!p c) = true := fun c hc => by rw [h c hc]; rfl
  have hdrop : cs.dropWhile (fun c => !p c) = [] := List.dropWhile_eq_nil_iff.2 hnot
  have htake : cs.takeWhile (fun c => !p c) = cs := List.takeWhile_eq_self_iff.2 hnot
  rw [splitFirst, List.span_eq_takeWhile_dropWhile, htake, hdrop]

theorem splitFirst_append (h : ∀ c ∈ before, p c = false) (hc : p c = true) :
    splitFirst p (before ++ c :: after) = (before, some after) := by
  have hnot : ∀ c ∈ before, (!p c) = true := fun c hc => by rw [h c hc]; rfl
  have hstop : ¬ (!p c) = true := by simp [hc]
  rw [splitFirst, List.span_eq_takeWhile_dropWhile, List.takeWhile_append_of_pos hnot,
    List.dropWhile_append_of_pos hnot, List.takeWhile_cons_of_neg (p := fun c => !p c) hstop,
    List.dropWhile_cons_of_neg (p := fun c => !p c) hstop, List.append_nil]

theorem splitFirst_cases (p : Char → Bool) (cs : List Char) :
    (∀ c ∈ cs, p c = false) ∨
      ∃ before c after, cs = before ++ c :: after ∧ (∀ d ∈ before, p d = false) ∧ p c = true := by
  induction cs with
  | nil => exact .inl fun c hc => absurd hc List.not_mem_nil
  | cons c cs ih =>
    cases hc : p c with
    | true => exact .inr ⟨[], c, cs, rfl, fun d hd => absurd hd List.not_mem_nil, hc⟩
    | false =>
      rcases ih with hall | ⟨before, d, after, rfl, hbefore, hd⟩
      · exact .inl (List.forall_mem_cons.2 ⟨hc, hall⟩)
      · exact .inr ⟨c :: before, d, after, rfl, List.forall_mem_cons.2 ⟨hc, hbefore⟩, hd⟩

end Split

/-! ## 5. Reading a decimal -/

def isMark (c : Char) : Bool := c = 'e' || c = 'E'

theorem isMark_iff {c : Char} : isMark c = true ↔ c = 'e' ∨ c = 'E' := by
  simp [isMark]

def readExponentText? : Option (List Char) → Option Int
  | none => some 0
  | some text => readInteger? (stripPlus text)

def Decimal.read? (text : List Char) : Option Decimal :=
  let magnitude := (Number.splitSign text).2
  let mantissa := (splitFirst isMark magnitude).1
  let whole := (splitFirst (· = '.') mantissa).1
  let fraction := (splitFirst (· = '.') mantissa).2.getD []
  (readExponentText? (splitFirst isMark magnitude).2).bind fun exponent =>
    if whole ≠ [] ∧ (whole ++ fraction).all Char.isDigit then
      some ⟨(Number.splitSign text).1, whole, fraction, exponent⟩
    else none

theorem splitSign_append {negative : Bool} {magnitude : List Char}
    (h : magnitude.head? ≠ some '-') :
    Number.splitSign ((if negative then ['-'] else []) ++ magnitude) = (negative, magnitude) := by
  cases negative with
  | true => rfl
  | false =>
    show Number.splitSign magnitude = (false, magnitude)
    unfold Number.splitSign
    split
    · exact absurd rfl h
    · rfl

theorem eq_append_of_splitSign (text : List Char) :
    text = (if (Number.splitSign text).1 then ['-'] else []) ++ (Number.splitSign text).2 := by
  unfold Number.splitSign
  split
  · rfl
  · rfl

theorem splitFirst_mark {mantissa exponent : List Char} {e : Int}
    (hmantissa : ∀ c ∈ mantissa, isMark c = false) (h : LooseExponent exponent e) :
    ∃ text?, splitFirst isMark (mantissa ++ exponent) = (mantissa, text?) ∧
      readExponentText? text? = some e := by
  cases exponent with
  | nil =>
    refine ⟨none, ?_, ?_⟩
    · rw [List.append_nil]
      exact splitFirst_of_forall hmantissa
    · rcases h with h | ⟨_, _, heq, -⟩
      · cases h
        rfl
      · cases heq
  | cons mark rest =>
    obtain ⟨hmark, hread⟩ := looseExponent_cons_iff.1 h
    exact ⟨some rest, splitFirst_append hmantissa (isMark_iff.2 hmark), hread⟩

theorem exists_exponent_of_splitFirst {cs : List Char} {e : Int}
    (h : readExponentText? (splitFirst isMark cs).2 = some e) :
    ∃ exponent, cs = (splitFirst isMark cs).1 ++ exponent ∧ LooseExponent exponent e := by
  rcases splitFirst_cases isMark cs with hall | ⟨before, mark, after, rfl, hbefore, hmark⟩
  · rw [splitFirst_of_forall hall] at h ⊢
    cases h
    exact ⟨[], (List.append_nil cs).symm, .inl .none⟩
  · rw [splitFirst_append hbefore hmark] at h ⊢
    exact ⟨mark :: after, rfl, looseExponent_cons_iff.2 ⟨isMark_iff.1 hmark, h⟩⟩

theorem splitFirst_point {whole point ds : List Char} (hwhole : Digits whole)
    (h : LooseFraction point ds) :
    ∃ text?, splitFirst (· = '.') (whole ++ point) = (whole, text?) ∧ text?.getD [] = ds := by
  have hnot : ∀ c ∈ whole, decide (c = '.') = false := by
    intro c hc
    apply decide_eq_false
    rintro rfl
    exact absurd (isDigit_iff.2 (hwhole.2 _ hc)) (by decide)
  cases h with
  | none =>
    refine ⟨none, ?_, rfl⟩
    rw [List.append_nil]
    exact splitFirst_of_forall hnot
  | point hds => exact ⟨some _, splitFirst_append hnot (by decide), rfl⟩

theorem exists_point_of_splitFirst {cs : List Char}
    (h : ∀ c ∈ (splitFirst (· = '.') cs).2.getD [], IsDigit c) :
    ∃ point, cs = (splitFirst (· = '.') cs).1 ++ point ∧
      LooseFraction point ((splitFirst (· = '.') cs).2.getD []) := by
  rcases splitFirst_cases (· = '.') cs with hall | ⟨before, c, after, rfl, hbefore, hc⟩
  · rw [splitFirst_of_forall hall]
    exact ⟨[], (List.append_nil cs).symm, .none⟩
  · rw [splitFirst_append hbefore hc] at h ⊢
    obtain rfl : c = '.' := of_decide_eq_true hc
    exact ⟨'.' :: after, rfl, .point h⟩

theorem isMark_of_isDigit {c : Char} (h : IsDigit c) : isMark c = false := by
  rw [Bool.eq_false_iff]
  intro hmark
  rcases isMark_iff.1 hmark with rfl | rfl
  · exact absurd (isDigit_iff.2 h) (by decide)
  · exact absurd (isDigit_iff.2 h) (by decide)

theorem isMark_of_mem_mantissa {whole point ds : List Char} (hwhole : Digits whole)
    (h : LooseFraction point ds) : ∀ c ∈ whole ++ point, isMark c = false := by
  intro c hc
  rcases List.mem_append.1 hc with hc | hc
  · exact isMark_of_isDigit (hwhole.2 c hc)
  · cases h with
    | none => exact absurd hc List.not_mem_nil
    | point hds =>
      rcases List.mem_cons.1 hc with rfl | hc
      · rfl
      · exact isMark_of_isDigit (hds c hc)

theorem spellsLoosely_of_read? {w : List Char} {d : Decimal} (h : Decimal.read? w = some d) :
    SpellsLoosely w d := by
  obtain ⟨e, hread, hif⟩ := Option.bind_eq_some_iff.1 h
  split at hif
  · rename_i hdigits
    cases hif
    obtain ⟨hne, hall⟩ := hdigits
    rw [all_isDigit_iff, List.forall_mem_append] at hall
    obtain ⟨exponent, hmagnitude, hexponent⟩ := exists_exponent_of_splitFirst hread
    obtain ⟨point, hmantissa, hpoint⟩ := exists_point_of_splitFirst hall.2
    have hjoined := hmagnitude.trans ((congrArg (· ++ exponent) hmantissa).trans
      (List.append_assoc _ _ _))
    exact ⟨point, exponent, (eq_append_of_splitSign w).trans (congrArg (_ ++ ·) hjoined),
      ⟨hne, hall.1⟩, hpoint, hexponent⟩
  · cases hif

theorem Grammar.SpellsLoosely.read?_eq {w : List Char} {d : Decimal} (h : SpellsLoosely w d) :
    Decimal.read? w = some d := by
  obtain ⟨point, exponent, rfl, hwhole, hpoint, hexponent⟩ := h
  -- Each split stops where the part ends: a digit is no minus sign, point or mark.
  have hhead : (d.whole ++ (point ++ exponent)).head? ≠ some '-' := by
    obtain ⟨c, ds, hcons⟩ := List.exists_cons_of_ne_nil hwhole.1
    have hc := hwhole.2 c (hcons ▸ List.mem_cons_self)
    rw [hcons]
    rintro ⟨⟩
    exact absurd (isDigit_iff.2 hc) (by decide)
  obtain ⟨exponentText, hmark, hread⟩ :=
    splitFirst_mark (isMark_of_mem_mantissa hwhole hpoint) hexponent
  obtain ⟨fractionText, hsplit, hfraction⟩ := splitFirst_point hwhole hpoint
  have hdigits : d.whole ≠ [] ∧ (d.whole ++ d.fraction).all Char.isDigit = true :=
    ⟨hwhole.1, all_isDigit_iff.2 (List.forall_mem_append.2 ⟨hwhole.2, hpoint.digits⟩)⟩
  rw [List.append_assoc] at hmark
  simp only [Decimal.read?, splitSign_append hhead, hmark, hsplit, hfraction, hread,
    Option.bind_some]
  rw [if_pos hdigits]

/-- Reading finds the decimal that a text spells, which is therefore the only one. -/
theorem read?_eq_some_iff {w : List Char} {d : Decimal} :
    Decimal.read? w = some d ↔ SpellsLoosely w d :=
  ⟨spellsLoosely_of_read?, SpellsLoosely.read?_eq⟩

theorem Grammar.SpellsLoosely.unique {w : List Char} {d e : Decimal} (hd : SpellsLoosely w d)
    (he : SpellsLoosely w e) : d = e :=
  Option.some.inj (hd.read?_eq.symm.trans he.read?_eq)

/-- A JSON number has exactly one value. -/
theorem Grammar.Spells.denotes_iff {w : List Char} {d : Decimal} (h : Spells w d) {q : ℚ} :
    Denotes w q ↔ q = d.value := by
  constructor
  · rintro ⟨e, he, rfl⟩
    rw [h.loosely.unique he.loosely]
  · rintro rfl
    exact ⟨d, h, rfl⟩

end JsonAutomata
