import JsonAutomata.Proofs.Number.NormalForm

/-!
# Equality — numbers compared by value

Equal numbers have the same value, and what decides equality is one normal form for each value
(`beq_sound`).  Numbers of the same value are equal as long as the exponents on the way to their
normal forms stay in range (`beq_iff_of_value_eq`); beyond that only the same text is equal, so two
spellings of zero can differ.  Texts without a normal form are compared as texts.  These are the
texts outside the looser grammar that equality reads (`normal?_eq_none_iff`), which takes three
slips for numbers (`slip_of_spellsLoosely`).
-/

namespace JsonAutomata

open Grammar

namespace Number

variable {a b : Number}

/-! ## 1. What equality decides -/

theorem beq_iff : (a == b) = true ↔
    a.lexeme = b.lexeme ∨ ∃ n, a.normal? = some n ∧ b.normal? = some n := by
  have hsame : a.lexeme = b.lexeme → a.normal? = b.normal? := fun h => by rw [normal?, h]; rfl
  show a.beq b = true ↔ _
  unfold beq
  cases ha : a.normal? with
  | none => simp
  | some x =>
    cases hb : b.normal? with
    | none => simp
    | some y =>
      rw [ha, hb] at hsame
      simp only [Option.some.injEq, decide_eq_true_eq] at hsame ⊢
      constructor
      · rintro rfl
        exact .inr ⟨x, rfl, rfl⟩
      · rintro (h | ⟨n, rfl, h⟩)
        · exact hsame h
        · exact h.symm

theorem normal?_eq_some_iff {d : Decimal} (hd : SpellsLoosely a.lexeme.toList d) {n : NormalForm} :
    a.normal? = some n ↔ d.Fits ∧ d.toNormal = n := by
  rw [normal?, normalForm?_eq_some_iff]
  constructor
  · rintro ⟨e, he, h⟩
    rwa [hd.unique he]
  · exact fun h => ⟨d, hd, h⟩

theorem normal?_eq_none_iff (a : Number) :
    a.normal? = none ↔ ¬ ∃ d, SpellsLoosely a.lexeme.toList d ∧ d.Fits := by
  rw [Option.eq_none_iff_forall_ne_some]
  constructor
  · rintro h ⟨d, hd, hfits⟩
    exact h _ ((normal?_eq_some_iff hd).2 ⟨hfits, rfl⟩)
  · intro h n hn
    obtain ⟨d, hd, hfits, -⟩ := normalForm?_eq_some_iff.1 hn
    exact h ⟨d, hd, hfits⟩

/-! ## 2. Soundness -/

/-- Equal numbers have the same value, and numbers with a normal form have the one of their value:
its digits have no zeros on either side, and zero has just one. -/
theorem beq_sound (ha : NumberText a.lexeme.toList) (hb : NumberText b.lexeme.toList) :
    ∃ q r, (∀ x, Denotes a.lexeme.toList x ↔ x = q) ∧ (∀ x, Denotes b.lexeme.toList x ↔ x = r) ∧
      ((a == b) = true → q = r) ∧
      (∀ n, a.normal? = some n → n.value = q ∧ n.Canonical ∧ (q = 0 → n = ⟨false, [], 0⟩)) ∧
      (∀ n m, a.normal? = some n → b.normal? = some m → q = r → n = m) := by
  obtain ⟨d, hd⟩ := numberText_iff_spells.1 ha
  obtain ⟨e, he⟩ := numberText_iff_spells.1 hb
  have hnormal : ∀ {n}, a.normal? = some n → d.toNormal = n := fun hn =>
    ((normal?_eq_some_iff hd.loosely).1 hn).2
  have hnormal' : ∀ {m}, b.normal? = some m → e.toNormal = m := fun hm =>
    ((normal?_eq_some_iff he.loosely).1 hm).2
  have hiff := Decimal.toNormal_eq_iff hd.loosely.isDigit_of_mem he.loosely.isDigit_of_mem
  have hcanonical := Decimal.canonical_toNormal hd.loosely.isDigit_of_mem
  refine ⟨d.value, e.value, fun _ => hd.denotes_iff, fun _ => he.denotes_iff, ?_, ?_, ?_⟩
  · intro h
    rcases beq_iff.1 h with htext | ⟨n, hn, hm⟩
    · rw [hd.loosely.unique (htext ▸ he.loosely)]
    · exact hiff.1 ((hnormal hn).trans (hnormal' hm).symm)
  · intro n hn
    obtain rfl := hnormal hn
    refine ⟨d.value_toNormal, hcanonical, ?_⟩
    intro hzero
    exact hcanonical.zero (hcanonical.digits_eq_nil_iff.2 (d.value_toNormal.trans hzero))
  · intro n m hn hm h
    rw [← hnormal hn, ← hnormal' hm]
    exact hiff.2 h

/-- A fraction with a zero at its end and an exponent, against an integer. -/
theorem beq_sound_scaled :
    let a : Number := ⟨"-1.50e2"⟩
    let b : Number := ⟨"-150"⟩
    NumberText a.lexeme.toList ∧ NumberText b.lexeme.toList ∧
      ∃ q r, (∀ x, Denotes a.lexeme.toList x ↔ x = q) ∧ (∀ x, Denotes b.lexeme.toList x ↔ x = r) ∧
        q = r ∧ NormalForm.value ⟨true, ['1', '5'], 1⟩ = q := by
  intro a b
  have ha : NumberText a.lexeme.toList :=
    ⟨['-'], ['1'], ['.', '5', '0'], ['e', '2'], by decide, .inr rfl,
      .inr ⟨'1', [], rfl, by decide, by decide, by simp [IsDigit]⟩,
      .inr ⟨['5', '0'], rfl, by decide, by simp [IsDigit]⟩,
      .inr ⟨'e', [], ['2'], rfl, .inl rfl, .inl rfl, by decide, by simp [IsDigit]⟩⟩
  have hb : NumberText b.lexeme.toList :=
    ⟨['-'], ['1', '5', '0'], [], [], by decide, .inr rfl,
      .inr ⟨'1', ['5', '0'], rfl, by decide, by decide, by simp [IsDigit]⟩, .inl rfl, .inl rfl⟩
  obtain ⟨q, r, hq, hr, hsound, hcanonical, -⟩ := beq_sound ha hb
  exact ⟨ha, hb, q, r, hq, hr, hsound (by decide), (hcanonical _ (by decide)).1⟩

/-! ## 3. Completeness, within range -/

/-- Numbers of the same value are equal if they are the same text, or if the exponents on the way to
their normal forms stay in range; otherwise they are not. -/
theorem beq_iff_of_value_eq {d e : Decimal} (ha : Spells a.lexeme.toList d)
    (hb : Spells b.lexeme.toList e) (h : d.value = e.value) :
    (a == b) = true ↔ a.lexeme = b.lexeme ∨ (d.Fits ∧ e.Fits) := by
  have hsame : d.toNormal = e.toNormal :=
    (Decimal.toNormal_eq_iff ha.loosely.isDigit_of_mem hb.loosely.isDigit_of_mem).2 h
  rw [beq_iff]
  apply or_congr_right
  simp only [normal?_eq_some_iff ha.loosely, normal?_eq_some_iff hb.loosely]
  constructor
  · rintro ⟨n, hd, he⟩
    exact ⟨hd.1, he.1⟩
  · rintro ⟨hd, he⟩
    exact ⟨d.toNormal, ⟨hd, rfl⟩, ⟨he, hsame.symm⟩⟩

/-- Exponents that differ by as much as the digits do. -/
theorem beq_iff_of_value_eq_scaled :
    let a : Number := ⟨"12.50e1"⟩
    let b : Number := ⟨"125"⟩
    let d : Decimal := ⟨false, ['1', '2'], ['5', '0'], 1⟩
    let e : Decimal := ⟨false, ['1', '2', '5'], [], 0⟩
    Spells a.lexeme.toList d ∧ Spells b.lexeme.toList e ∧ d.value = e.value ∧ d.Fits ∧ e.Fits ∧
      (a == b) = true := by
  intro a b d e
  have hone : Digits ['1'] := ⟨by decide, by simp [IsDigit]⟩
  have hd : Spells a.lexeme.toList d :=
    ⟨['.', '5', '0'], ['e', '1'], by decide,
      .inr ⟨'1', ['2'], rfl, by decide, by decide, by simp [d, IsDigit]⟩,
      .point ⟨by decide, by simp [IsDigit]⟩, .unsigned (.inl rfl) hone⟩
  have he : Spells b.lexeme.toList e :=
    ⟨[], [], by decide,
      .inr ⟨'1', ['2', '5'], rfl, by decide, by decide, by simp [e, IsDigit]⟩, .none, .none⟩
  have hvalue : d.value = e.value := by
    have hdvalue : digitsValue d.digits = 1250 := by decide
    have hevalue : digitsValue e.digits = 125 := by decide
    rw [Decimal.value_eq, Decimal.value_eq, hdvalue, hevalue]
    norm_num [d, e, signFactor]
  have hdfits : d.Fits := ⟨by decide, fun _ => by decide, fun _ => by decide⟩
  have hefits : e.Fits := ⟨by decide, fun _ => by decide, fun _ => by decide⟩
  exact ⟨hd, he, hvalue, hdfits, hefits,
    (beq_iff_of_value_eq hd he hvalue).2 (.inr ⟨hdfits, hefits⟩)⟩

/-- Zero with an exponent out of range differs from zero. -/
theorem not_beq_of_huge_exponent :
    let a : Number := ⟨"0"⟩
    let b : Number := ⟨"0e99999999999999999999"⟩
    Denotes a.lexeme.toList 0 ∧ Denotes b.lexeme.toList 0 ∧ (a == b) = false := by
  intro a b
  have hzero : ∀ e, (⟨false, ['0'], [], e⟩ : Decimal).value = 0 := by
    intro e
    rw [Decimal.value_eq]
    simp [Decimal.digits, digitsValue, appendDigits, digitValue]
  have hnines : Digits (List.replicate 20 '9') :=
    ⟨by decide, fun c hc => List.eq_of_mem_replicate hc ▸ by simp [IsDigit]⟩
  have hb : Spells b.lexeme.toList
      ⟨false, ['0'], [], digitsValue (List.replicate 20 '9')⟩ :=
    ⟨[], 'e' :: List.replicate 20 '9', by decide, .inl rfl, .none, .unsigned (.inl rfl) hnines⟩
  exact ⟨⟨⟨false, ['0'], [], 0⟩, ⟨[], [], by decide, .inl rfl, .none, .none⟩, hzero _⟩,
    ⟨_, hb, hzero _⟩, by decide⟩

/-! ## 4. Texts that are not numbers -/

def LeadingZero (w : List Char) : Prop :=
  ∃ sign c rest, w = sign ++ '0' :: c :: rest ∧ (sign = [] ∨ sign = ['-']) ∧ IsDigit c

def BarePoint (w : List Char) : Prop :=
  ∃ before after, w = before ++ '.' :: after ∧ ∀ c ∈ after.head?, ¬ IsDigit c

def DoubledSign (w : List Char) : Prop :=
  ∃ before sign after, w = before ++ '+' :: sign :: after ∧ (sign = '+' ∨ sign = '-')

theorem whole_or_exists {whole : List Char} (h : Digits whole) :
    Whole whole ∨ ∃ c ds, whole = '0' :: c :: ds ∧ IsDigit c := by
  cases whole with
  | nil => exact absurd rfl h.1
  | cons c ds =>
    by_cases hc : c = '0'
    · subst hc
      cases ds with
      | nil => exact .inl (.inl rfl)
      | cons c ds =>
        exact .inr ⟨c, ds, rfl, h.2 c (List.mem_cons_of_mem _ List.mem_cons_self)⟩
    · exact .inl (.inr ⟨c, ds, rfl, hc, h⟩)

theorem fractionOf_or_eq {point ds : List Char} (h : LooseFraction point ds) :
    FractionOf point ds ∨ point = ['.'] := by
  cases h with
  | none => exact .inl .none
  | point hds =>
    cases ds with
    | nil => exact .inr rfl
    | cons c ds => exact .inl (.point ⟨List.cons_ne_nil c ds, hds⟩)

theorem exponentOf_or_exists {w : List Char} {e : ℤ} (h : LooseExponent w e) :
    ExponentOf w e ∨ ∃ mark sign rest, w = mark :: '+' :: sign :: rest ∧
      (sign = '+' ∨ sign = '-') := by
  rcases h with h | ⟨mark, rest, rfl, h⟩
  · exact .inl h
  · cases h with
    | unsigned hmark hds => exact .inl (.plus hmark hds)
    | plus _ _ => exact .inr ⟨mark, '+', _, rfl, .inl rfl⟩
    | minus _ _ => exact .inr ⟨mark, '-', _, rfl, .inr rfl⟩

theorem head_of_looseExponent {w : List Char} {e : ℤ} (h : LooseExponent w e) :
    ∀ c ∈ w.head?, ¬ IsDigit c := by
  cases w with
  | nil => nofun
  | cons mark rest =>
    intro c hc hdigit
    cases hc
    have hmark := isMark_iff.2 (looseExponent_cons_iff.1 h).1
    rw [isMark_of_isDigit hdigit] at hmark
    cases hmark

/-- What equality takes for a number and the grammar does not has one of three slips. -/
theorem slip_of_spellsLoosely {w : List Char} {d : Decimal} (h : SpellsLoosely w d)
    (hnot : ¬ NumberText w) : LeadingZero w ∨ BarePoint w ∨ DoubledSign w := by
  obtain ⟨point, exponent, hw, hwhole, hfraction, hexponent⟩ := h
  -- The first part that the grammar does not have is the slip.
  rcases whole_or_exists hwhole with hwhole | ⟨c, ds, hzero, hc⟩
  · rcases fractionOf_or_eq hfraction with hfraction | hpoint
    · rcases exponentOf_or_exists hexponent with hexponent | ⟨mark, sign, rest, hplus, hsign⟩
      · exact absurd (numberText_iff_spells.2
          ⟨d, point, exponent, hw, hwhole, hfraction, hexponent⟩) hnot
      · refine .inr (.inr ⟨(if d.negative then ['-'] else []) ++ (d.whole ++ (point ++ [mark])),
          sign, rest, ?_, hsign⟩)
        rw [hw, hplus]
        simp only [List.append_assoc, List.singleton_append]
    · refine .inr (.inl ⟨(if d.negative then ['-'] else []) ++ d.whole, exponent, ?_,
        head_of_looseExponent hexponent⟩)
      rw [hw, hpoint]
      simp only [List.append_assoc, List.singleton_append]
  · refine .inl ⟨if d.negative then ['-'] else [], c, ds ++ (point ++ exponent), ?_, ?_, hc⟩
    · rw [hw, hzero]
      rfl
    · cases d.negative with
      | true => exact .inr rfl
      | false => exact .inl rfl

/-- A text has no normal form just if equality does not take it for a number whose exponents stay in
range, and a text that is no number and has no slip is none of these.  Numbers of which one has no
normal form are equal if they are the same text. -/
theorem beq_iff_lexeme_eq (a b : Number) :
    (a.normal? = none ↔ ¬ ∃ d, SpellsLoosely a.lexeme.toList d ∧ d.Fits) ∧
      (¬ NumberText a.lexeme.toList → ¬ LeadingZero a.lexeme.toList →
        ¬ BarePoint a.lexeme.toList → ¬ DoubledSign a.lexeme.toList → a.normal? = none) ∧
      ((¬ ∃ d, SpellsLoosely a.lexeme.toList d ∧ d.Fits) ∨
          (¬ ∃ d, SpellsLoosely b.lexeme.toList d ∧ d.Fits) →
        ((a == b) = true ↔ a.lexeme = b.lexeme)) := by
  refine ⟨normal?_eq_none_iff a, ?_, ?_⟩
  · intro hnot hzero hpoint hsign
    rw [normal?_eq_none_iff]
    rintro ⟨d, hd, -⟩
    rcases slip_of_spellsLoosely hd hnot with h | h | h
    · exact hzero h
    · exact hpoint h
    · exact hsign h
  · intro h
    rw [← normal?_eq_none_iff, ← normal?_eq_none_iff] at h
    rw [beq_iff]
    apply or_iff_left
    rintro ⟨n, ha, hb⟩
    rcases h with h | h
    · rw [h] at ha
      cases ha
    · rw [h] at hb
      cases hb

theorem beq_iff_lexeme_eq_word :
    let a : Number := ⟨"abc"⟩
    let b : Number := ⟨"1"⟩
    ¬ NumberText a.lexeme.toList ∧ ¬ LeadingZero a.lexeme.toList ∧ ¬ BarePoint a.lexeme.toList ∧
      ¬ DoubledSign a.lexeme.toList ∧ a.normal? = none ∧ ¬ (a == b) = true := by
  intro a b
  have hread : Decimal.read? a.lexeme.toList = none := by decide
  have hloose : ∀ d, ¬ SpellsLoosely a.lexeme.toList d := by
    intro d hd
    rw [hd.read?_eq] at hread
    cases hread
  have hnot : ¬ NumberText a.lexeme.toList := by
    intro h
    obtain ⟨d, hd⟩ := numberText_iff_spells.1 h
    exact hloose d hd.loosely
  have hzero : ¬ LeadingZero a.lexeme.toList := by
    rintro ⟨sign, c, rest, hw, -, -⟩
    have hmem : '0' ∈ a.lexeme.toList := hw ▸ List.mem_append_right _ List.mem_cons_self
    exact absurd hmem (by decide)
  have hpoint : ¬ BarePoint a.lexeme.toList := by
    rintro ⟨before, after, hw, -⟩
    have hmem : '.' ∈ a.lexeme.toList := hw ▸ List.mem_append_right _ List.mem_cons_self
    exact absurd hmem (by decide)
  have hsign : ¬ DoubledSign a.lexeme.toList := by
    rintro ⟨before, sign, after, hw, -⟩
    have hmem : '+' ∈ a.lexeme.toList := hw ▸ List.mem_append_right _ List.mem_cons_self
    exact absurd hmem (by decide)
  obtain ⟨-, hnormal, htext⟩ := beq_iff_lexeme_eq a b
  refine ⟨hnot, hzero, hpoint, hsign, hnormal hnot hzero hpoint hsign, ?_⟩
  rw [htext (.inl fun ⟨d, hd, _⟩ => hloose d hd)]
  decide

/-- Two zeros are not a number, and equal to zero. -/
theorem beq_of_leading_zero :
    let a : Number := ⟨"00"⟩
    let b : Number := ⟨"0"⟩
    ¬ NumberText a.lexeme.toList ∧ a.lexeme ≠ b.lexeme ∧ (a == b) = true := by
  intro a b
  refine ⟨?_, by decide, by decide⟩
  intro h
  obtain ⟨d, hd⟩ := numberText_iff_spells.1 h
  have hread : Decimal.read? a.lexeme.toList = some ⟨false, ['0', '0'], [], 0⟩ := by decide
  obtain rfl : d = ⟨false, ['0', '0'], [], 0⟩ := hd.loosely.unique (read?_eq_some_iff.1 hread)
  obtain ⟨-, -, -, hwhole, -, -⟩ := hd
  rcases hwhole with hwhole | ⟨c, ds, hwhole, hne, -⟩
  · exact absurd hwhole (by decide)
  · cases hwhole
    exact hne rfl

end Number

end JsonAutomata
