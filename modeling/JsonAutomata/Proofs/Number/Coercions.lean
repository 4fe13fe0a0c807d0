import JsonAutomata.Proofs.Number.NormalForm

/-!
# Coercions — numbers as machine integers and floating-point values

A JSON number is read as an integer just if it has neither a fraction nor an exponent, and then as
its exact value (`readInteger?_eq_some_iff`), so the coercion to 64 bits finds the integers in range
and nothing else (`Number.toInt64?_eq_some_iff`).  As a floating-point number every JSON number can
be read: its digits, scaled by the power of ten that is left of its exponent, are rounded
(`Grammar.Spells.readBinary?_eq`).
-/

namespace JsonAutomata

open Grammar

namespace Grammar

/-! ## 1. Integers -/

/-- The text is an optional minus sign and an integer, without a fraction or an exponent. -/
def IntegerText (w : List Char) : Prop :=
  ∃ sign whole, w = sign ++ whole ∧ (sign = [] ∨ sign = ['-']) ∧ Whole whole

theorem IntegerText.numberText {w : List Char} (h : IntegerText w) : NumberText w := by
  obtain ⟨sign, whole, rfl, hsign, hwhole⟩ := h
  exact ⟨sign, whole, [], [], by simp, hsign, hwhole, .inl rfl, .inl rfl⟩

theorem IntegerText.isDigit_of_mem {w : List Char} {c : Char} (h : IntegerText w) (hc : c ∈ w) :
    c = '-' ∨ IsDigit c := by
  obtain ⟨sign, whole, rfl, rfl | rfl, hwhole⟩ := h
  · exact .inr (hwhole.digits.2 c hc)
  · exact (List.mem_cons.1 hc).imp_right (hwhole.digits.2 c)

/-- A number that is no integer has a point or the mark of an exponent. -/
theorem NumberText.integerText_or_exists {w : List Char} (h : NumberText w) :
    IntegerText w ∨ ∃ c ∈ w, c = '.' ∨ c = 'e' ∨ c = 'E' := by
  obtain ⟨sign, whole, fraction, exponent, rfl, hsign, hwhole, hfraction, hexponent⟩ := h
  rcases hfraction with rfl | ⟨ds, rfl, -⟩
  · rcases hexponent with rfl | ⟨mark, expSign, ds, rfl, hmark, -, -⟩
    · exact .inl ⟨sign, whole, by simp, hsign, hwhole⟩
    · exact .inr ⟨mark, by simp, .inr hmark⟩
  · exact .inr ⟨'.', by simp, .inl rfl⟩

end Grammar

/-! ## 2. Reading integers -/

theorem readNatural?_eq_none {cs : List Char} {c : Char} (hc : c ∈ cs) (h : ¬ IsDigit c) :
    readNatural? cs = none := by
  rw [Option.eq_none_iff_forall_ne_some]
  intro n hn
  exact h ((readNatural?_eq_some_iff.1 hn).1.2 c hc)

/-- A text with a character that is neither a digit nor a sign is not read. -/
theorem readInteger?_eq_none {cs : List Char} {c : Char} (hc : c ∈ cs) (h : ¬ IsDigit c)
    (hplus : c ≠ '+') (hminus : c ≠ '-') : readInteger? cs = none := by
  unfold readInteger?
  split
  · rw [readNatural?_eq_none ((List.mem_cons.1 hc).resolve_left hplus) h]
    rfl
  · rw [readNatural?_eq_none ((List.mem_cons.1 hc).resolve_left hminus) h]
    rfl
  · rw [readNatural?_eq_none hc h]
    rfl

namespace Grammar

theorem denotes_whole {whole : List Char} (h : Whole whole) (negative : Bool) :
    Denotes ((if negative then ['-'] else []) ++ whole) (signFactor negative * digitsValue whole) := by
  refine ⟨⟨negative, whole, [], 0⟩, ⟨[], [], by simp, h, .none, .none⟩, ?_⟩
  have hnone : digitsValue [] = 0 := rfl
  simp [Decimal.value, hnone]

theorem Whole.denotes {w : List Char} (h : Whole w) : Denotes w (digitsValue w : ℤ) := by
  have hdenotes := denotes_whole h false
  simpa [signFactor] using hdenotes

theorem Whole.denotes_neg {w : List Char} (h : Whole w) :
    Denotes ('-' :: w) (-digitsValue w : ℤ) := by
  have hdenotes := denotes_whole h true
  simpa [signFactor] using hdenotes

/-- An integer is read as its exact value. -/
theorem IntegerText.exists_readInteger? {w : List Char} (h : IntegerText w) :
    ∃ k : ℤ, readInteger? w = some k ∧ Denotes w k := by
  obtain ⟨sign, whole, rfl, rfl | rfl, hwhole⟩ := h
  · exact ⟨digitsValue whole, readInteger?_of_digits hwhole.digits, hwhole.denotes⟩
  · refine ⟨-digitsValue whole, ?_, hwhole.denotes_neg⟩
    rw [List.singleton_append, readInteger?, readNatural?_eq_some_iff.2 ⟨hwhole.digits, rfl⟩]
    rfl

theorem NumberText.denotes_inj {w : List Char} (h : NumberText w) {x y : ℚ}
    (hx : Denotes w x) (hy : Denotes w y) : x = y := by
  obtain ⟨d, hd⟩ := numberText_iff_spells.1 h
  exact (hd.denotes_iff.1 hx).trans (hd.denotes_iff.1 hy).symm

end Grammar

theorem readInteger?_eq_some_iff {w : List Char} (h : NumberText w) {k : ℤ} :
    readInteger? w = some k ↔ IntegerText w ∧ Denotes w k := by
  rcases h.integerText_or_exists with hinteger | ⟨c, hc, hmark⟩
  · obtain ⟨l, hread, hl⟩ := hinteger.exists_readInteger?
    rw [hread, Option.some_inj]
    constructor
    · rintro rfl
      exact ⟨hinteger, hl⟩
    · rintro ⟨-, hk⟩
      exact_mod_cast h.denotes_inj hl hk
  · have hnot : ¬ IsDigit c ∧ c ≠ '+' ∧ c ≠ '-' := by
      rw [← isDigit_iff]
      rcases hmark with rfl | rfl | rfl <;> decide
    rw [readInteger?_eq_none hc hnot.1 hnot.2.1 hnot.2.2]
    constructor
    · intro hnone
      cases hnone
    · rintro ⟨hinteger, -⟩
      rcases hinteger.isDigit_of_mem hc with hminus | hdigit
      · exact absurd hminus hnot.2.2
      · exact absurd hdigit hnot.1

namespace Number

variable {n : Number}

/-- The coercion to 64 bits finds the exact value of integers in range, and is nothing for other
numbers. -/
theorem toInt64?_eq_some_iff (h : NumberText n.lexeme.toList) {k : ℤ} :
    n.toInt64? = some k ↔
      IntegerText n.lexeme.toList ∧ Denotes n.lexeme.toList k ∧ InRange k := by
  rw [toInt64?, readSigned?, Option.filter_eq_some_iff, readInteger?_eq_some_iff h, fitsSigned_iff,
    and_assoc]

theorem isInteger_iff (h : NumberText n.lexeme.toList) :
    n.isInteger = true ↔ IntegerText n.lexeme.toList := by
  have hall : n.isInteger = true ↔ ∀ c ∈ n.lexeme.toList, ¬ (c = '.' ∨ c = 'e' ∨ c = 'E') := by
    simp [isInteger, and_assoc]
  rw [hall]
  constructor
  · intro hnone
    rcases h.integerText_or_exists with hinteger | ⟨c, hc, hmark⟩
    · exact hinteger
    · exact absurd hmark (hnone c hc)
  · intro hinteger c hc hmark
    have hcases := hinteger.isDigit_of_mem hc
    rw [← isDigit_iff] at hcases
    rcases hmark with rfl | rfl | rfl <;> exact absurd hcases (by decide)

end Number

/-! ## 3. Reading floating-point numbers -/

theorem readDecimal?_eq {whole point ds exponent : List Char} {e : ℤ} (hwhole : Digits whole)
    (hpoint : LooseFraction point ds) (hexponent : ExponentOf exponent e) :
    readDecimal? (whole ++ (point ++ exponent))
      = some ⟨digitsValue (whole ++ ds), e - ds.length⟩ := by
  have hmantissa := isMark_of_mem_mantissa hwhole hpoint
  obtain ⟨fractionText, hsplit, hfraction⟩ := splitFirst_point hwhole hpoint
  have hread : readNatural? (whole ++ ds) = some (digitsValue (whole ++ ds)) :=
    readNatural?_eq_some_iff.2 ⟨⟨List.append_ne_nil_of_left_ne_nil hwhole.1 ds,
      List.forall_mem_append.2 ⟨hwhole.2, hpoint.digits⟩⟩, rfl⟩
  have hmark : (fun c : Char => decide (c = 'e') || decide (c = 'E')) = isMark := rfl
  rw [← List.append_assoc]
  cases exponent with
  | nil =>
    cases hexponent
    rw [List.append_nil]
    simp only [readDecimal?, hmark, splitFirst_of_forall hmantissa, hsplit, hfraction, hread]
    rfl
  | cons mark rest =>
    obtain ⟨hmarked, he⟩ := exponentOf_cons_iff.1 hexponent
    simp only [readDecimal?, hmark, splitFirst_append hmantissa (isMark_iff.2 hmarked), hsplit,
      hfraction, hread, he]
    rfl

/-- A JSON number is read as its digits, scaled and rounded. -/
theorem Grammar.Spells.readBinary?_eq {w : List Char} {d : Decimal} (h : Spells w d)
    (fmt : BinaryFormat) :
    fmt.read? w = some (fmt.roundDecimal d.negative (digitsValue d.digits)
      (d.exponent - d.fraction.length)) := by
  obtain ⟨point, exponent, rfl, hwhole, hpoint, hexponent⟩ := h
  have hmagnitude : ∀ negative, fmt.readMagnitude? negative (d.whole ++ (point ++ exponent))
      = some (fmt.roundDecimal negative (digitsValue d.digits)
        (d.exponent - d.fraction.length)) := by
    intro negative
    rw [BinaryFormat.readMagnitude?, readDecimal?_eq hwhole.digits hpoint.loose hexponent]
    rfl
  cases d.negative with
  | true => exact hmagnitude true
  | false =>
    -- The text begins with a digit, so it is read without sign.
    obtain ⟨c, ds, hcons⟩ := List.exists_cons_of_ne_nil hwhole.digits.1
    have hc : IsDigit c := hwhole.digits.2 c (hcons ▸ List.mem_cons_self)
    rw [← hmagnitude false, hcons]
    show fmt.read? (c :: (ds ++ (point ++ exponent))) = _
    unfold BinaryFormat.read?
    split
    · rename_i heq
      cases heq
      exact absurd (isDigit_iff.2 hc) (by decide)
    · rename_i heq
      cases heq
      exact absurd (isDigit_iff.2 hc) (by decide)
    · rfl

theorem Number.toDouble?_of_spells {n : Number} {d : Decimal} (h : Spells n.lexeme.toList d) :
    n.toDouble? = some (BinaryFormat.double.roundDecimal d.negative (digitsValue d.digits)
      (d.exponent - d.fraction.length)) :=
  h.readBinary?_eq .double

end JsonAutomata
