import JsonAutomata.Proofs.Number.Spelling
import Mathlib.Algebra.Order.Field.Basic
import Mathlib.Tactic.FieldSimp

/-!
# Normal forms — one for each value

Every decimal has a normal form of the same value, which computing finds whenever three exponents
stay in the range of 64 bits (`Decimal.normal?_eq_some_iff`, `Decimal.Fits`).  Normal forms with the
same value are the same (`NormalForm.Canonical.eq_of_value_eq`): a nonzero value is a number that
ten does not divide, times a power of ten, in one way only.
-/

namespace JsonAutomata

open Grammar Number

/-! ## 1. Values and canonical forms -/

def NormalForm.value (n : NormalForm) : ℚ :=
  signFactor n.negative * digitsValue n.digits * 10 ^ n.exponent

/-- The digits have no zeros on either side, and there is one form of zero. -/
structure NormalForm.Canonical (n : NormalForm) : Prop where
  trimmed : Trimmed n.digits
  zero : n.digits = [] → n = ⟨false, [], 0⟩

theorem signFactor_ne_zero (negative : Bool) : signFactor negative ≠ 0 := by
  cases negative <;> norm_num [signFactor]

theorem ten_zpow_ne_zero (e : ℤ) : (10 : ℚ) ^ e ≠ 0 := zpow_ne_zero e (by norm_num)

/-- The number that ten does not divide and the power of ten are determined by their product. -/
theorem eq_of_mul_zpow_eq {m n : ℕ} {i j : ℤ} (hm : m % 10 ≠ 0) (hn : n % 10 ≠ 0)
    (h : (m : ℚ) * 10 ^ i = n * 10 ^ j) : m = n ∧ i = j := by
  -- With the larger exponent on the side of `k`, the other number is divisible by ten.
  have hle : ∀ {k l : ℕ} {a b : ℤ}, k % 10 ≠ 0 → (k : ℚ) * 10 ^ a = l * 10 ^ b → b ≤ a := by
    intro k l a b hk heq
    by_contra hlt
    obtain ⟨p, hp⟩ : ∃ p : ℕ, b = a + (p + 1 : ℕ) := ⟨(b - a - 1).toNat, by omega⟩
    have hmul : (k : ℚ) = (l * 10 ^ (p + 1) : ℕ) := by
      have hcancel : (k : ℚ) * 10 ^ a = (l * 10 ^ (p + 1) : ℕ) * 10 ^ a := by
        rw [heq, hp, zpow_add₀ (by norm_num), zpow_natCast]
        push_cast
        ring
      exact mul_right_cancel₀ (ten_zpow_ne_zero a) hcancel
    have hnat : k = l * 10 ^ (p + 1) := by exact_mod_cast hmul
    apply hk
    rw [hnat, pow_succ, ← Nat.mul_assoc, Nat.mul_mod_left]
  have hij : i = j := le_antisymm (hle hn h.symm) (hle hm h)
  rw [hij] at h
  exact ⟨by exact_mod_cast mul_right_cancel₀ (ten_zpow_ne_zero j) h, hij⟩

theorem NormalForm.Canonical.digits_eq_nil_iff {n : NormalForm} (h : n.Canonical) :
    n.digits = [] ↔ n.value = 0 := by
  rw [h.trimmed.eq_nil_iff, NormalForm.value, mul_eq_zero, mul_eq_zero]
  constructor
  · intro hzero
    exact .inl (.inr (by rw [hzero]; rfl))
  · rintro ((hzero | hzero) | hzero)
    · exact absurd hzero (signFactor_ne_zero _)
    · exact_mod_cast hzero
    · exact absurd hzero (ten_zpow_ne_zero _)

theorem eq_of_signFactor_mul_eq {s t : Bool} {x y : ℚ} (hx : 0 < x) (hy : 0 < y)
    (h : signFactor s * x = signFactor t * y) : s = t ∧ x = y := by
  have hst : s = t := by
    cases s <;> cases t <;>
      simp only [signFactor, Bool.false_eq_true, if_false, if_true, one_mul, neg_one_mul] at h
    · rfl
    · linarith
    · linarith
    · rfl
  rw [hst] at h
  exact ⟨hst, mul_left_cancel₀ (signFactor_ne_zero t) h⟩

theorem NormalForm.Canonical.eq_of_value_eq {n m : NormalForm} (hn : n.Canonical)
    (hm : m.Canonical) (h : n.value = m.value) : n = m := by
  by_cases hzero : n.value = 0
  · rw [hn.zero (hn.digits_eq_nil_iff.2 hzero), hm.zero (hm.digits_eq_nil_iff.2 (h ▸ hzero))]
  · have hnmod := hn.trimmed.mod_ne_zero (mt hn.digits_eq_nil_iff.1 hzero)
    have hmmod := hm.trimmed.mod_ne_zero (mt hm.digits_eq_nil_iff.1 (h ▸ hzero))
    -- Without the signs both values are positive, so the signs agree.
    have hpos : ∀ {k : NormalForm}, digitsValue k.digits % 10 ≠ 0 →
        0 < (digitsValue k.digits : ℚ) * 10 ^ k.exponent := by
      intro k hk
      have hdigits : 0 < digitsValue k.digits := by omega
      exact mul_pos (by exact_mod_cast hdigits) (zpow_pos (by norm_num) _)
    rw [NormalForm.value, NormalForm.value, mul_assoc, mul_assoc] at h
    obtain ⟨hsign, hmagnitude⟩ := eq_of_signFactor_mul_eq (hpos hnmod) (hpos hmmod) h
    obtain ⟨hdigits, hexponent⟩ := eq_of_mul_zpow_eq hnmod hmmod hmagnitude
    have htexts := hn.trimmed.eq_of_value_eq hm.trimmed hdigits
    obtain ⟨negative, digits, exponent⟩ := n
    obtain ⟨_, _, _⟩ := m
    simp only at hsign htexts hexponent
    rw [hsign, htexts, hexponent]

/-! ## 2. The normal form of a decimal -/

namespace Decimal

def toNormal (d : Decimal) : NormalForm :=
  if digitsValue d.digits = 0 then ⟨false, [], 0⟩
  else ⟨d.negative, trim d.digits, d.exponent - d.fraction.length + trailingZeros d.digits⟩

theorem canonical_toNormal {d : Decimal} (h : ∀ c ∈ d.digits, IsDigit c) :
    d.toNormal.Canonical := by
  unfold toNormal
  split
  · exact ⟨⟨fun c hc => absurd hc List.not_mem_nil, by simp, by simp⟩, fun _ => rfl⟩
  · rename_i hne
    exact ⟨trimmed_trim h, fun hnil => absurd ((trim_eq_nil_iff h).1 hnil) hne⟩

theorem value_eq (d : Decimal) :
    d.value = signFactor d.negative * digitsValue d.digits
      * 10 ^ (d.exponent - d.fraction.length) := by
  have hpow : (10 : ℚ) ^ d.fraction.length ≠ 0 := pow_ne_zero _ (by norm_num)
  rw [value, digits, digitsValue_append, zpow_sub₀ (by norm_num), zpow_natCast]
  push_cast
  field_simp

theorem value_toNormal (d : Decimal) : d.toNormal.value = d.value := by
  rw [value_eq]
  unfold toNormal
  split
  · rename_i hzero
    rw [hzero]
    simp [NormalForm.value, digitsValue, appendDigits]
  · rename_i hne
    have htrim : digitsValue d.digits = digitsValue (trim d.digits) * 10 ^ trailingZeros d.digits := by
      rw [← digitsValue_dropZeros, ← trailingZeros_dropZeros hne]
      exact digitsValue_dropTrailing _
    rw [htrim, NormalForm.value, zpow_add₀ (by norm_num), zpow_natCast]
    push_cast
    ring

theorem toNormal_eq_iff {d e : Decimal} (hd : ∀ c ∈ d.digits, IsDigit c)
    (he : ∀ c ∈ e.digits, IsDigit c) : d.toNormal = e.toNormal ↔ d.value = e.value := by
  constructor
  · intro h
    rw [← value_toNormal d, h, value_toNormal]
  · intro h
    apply (canonical_toNormal hd).eq_of_value_eq (canonical_toNormal he)
    rw [value_toNormal, value_toNormal, h]

end Decimal

/-! ## 3. Where exponents leave the range -/

def InRange (i : ℤ) : Prop := -2 ^ 63 ≤ i ∧ i < 2 ^ 63

instance (i : ℤ) : Decidable (InRange i) := inferInstanceAs (Decidable (_ ∧ _))

theorem fitsSigned_iff {i : ℤ} : fitsSigned 64 i = true ↔ InRange i := by
  show (decide (i < 2 ^ 63) && decide (-2 ^ 63 ≤ i)) = true ↔ _
  rw [Bool.and_eq_true, decide_eq_true_eq, decide_eq_true_eq, and_comm]
  rfl

theorem inRange?_eq_some_iff {i j : ℤ} : inRange? i = some j ↔ InRange i ∧ i = j := by
  rw [← fitsSigned_iff]
  unfold inRange?
  split
  · rename_i h
    rw [Option.some_inj]
    exact (and_iff_right h).symm
  · rename_i h
    exact ⟨nofun, fun hj => absurd hj.1 h⟩

namespace Decimal

/-- The exponents that computing the normal form goes through are signed numbers of 64 bits: the
exponent as it is written, then for a value other than zero the one of the last digit, and the one
of the last digit that is not zero. -/
structure Fits (d : Decimal) : Prop where
  exponent : InRange d.exponent
  unscaled : digitsValue d.digits ≠ 0 → InRange (d.exponent - d.fraction.length)
  scaled : digitsValue d.digits ≠ 0 →
    InRange (d.exponent - d.fraction.length + trailingZeros d.digits)

def normal? (d : Decimal) : Option NormalForm :=
  (inRange? d.exponent).bind (normalDigits? d.negative d.whole d.fraction)

theorem normalDigits?_eq {d : Decimal} (h : ∀ c ∈ d.digits, IsDigit c) (e : ℤ) :
    normalDigits? d.negative d.whole d.fraction e
      = if digitsValue d.digits = 0 then some ⟨false, [], 0⟩
        else (inRange? (e - d.fraction.length)).bind fun unscaled =>
          (inRange? (unscaled + trailingZeros d.digits)).bind fun scaled =>
            some ⟨d.negative, trim d.digits, scaled⟩ := by
  have hdef : normalDigits? d.negative d.whole d.fraction e
      = if trim d.digits = [] then some ⟨false, [], 0⟩
        else (inRange? (e - d.fraction.length)).bind fun unscaled =>
          (inRange? (unscaled + ((dropZeros d.digits).length - (trim d.digits).length : ℕ))).bind
            fun scaled => some ⟨d.negative, trim d.digits, scaled⟩ := rfl
  rw [hdef]
  by_cases hzero : digitsValue d.digits = 0
  · rw [if_pos ((trim_eq_nil_iff h).2 hzero), if_pos hzero]
  · rw [if_neg (mt (trim_eq_nil_iff h).1 hzero), if_neg hzero, trim, length_dropTrailing,
      trailingZeros_dropZeros hzero]

theorem normal?_eq_some_iff {d : Decimal} (h : ∀ c ∈ d.digits, IsDigit c) {n : NormalForm} :
    d.normal? = some n ↔ d.Fits ∧ d.toNormal = n := by
  rw [normal?, Option.bind_eq_some_iff]
  simp only [normalDigits?_eq h, inRange?_eq_some_iff]
  by_cases hzero : digitsValue d.digits = 0
  · rw [toNormal, if_pos hzero]
    constructor
    · rintro ⟨e, ⟨he, rfl⟩, hn⟩
      rw [if_pos hzero] at hn
      exact ⟨⟨he, fun hne => absurd hzero hne, fun hne => absurd hzero hne⟩, Option.some.inj hn⟩
    · rintro ⟨hfits, rfl⟩
      exact ⟨_, ⟨hfits.exponent, rfl⟩, if_pos hzero⟩
  · rw [toNormal, if_neg hzero]
    constructor
    · rintro ⟨e, ⟨he, rfl⟩, hn⟩
      rw [if_neg hzero] at hn
      obtain ⟨u, hu, hn⟩ := Option.bind_eq_some_iff.1 hn
      obtain ⟨s, hs, hn⟩ := Option.bind_eq_some_iff.1 hn
      obtain ⟨hunscaled, rfl⟩ := inRange?_eq_some_iff.1 hu
      obtain ⟨hscaled, rfl⟩ := inRange?_eq_some_iff.1 hs
      exact ⟨⟨he, fun _ => hunscaled, fun _ => hscaled⟩, Option.some.inj hn⟩
    · rintro ⟨hfits, rfl⟩
      refine ⟨_, ⟨hfits.exponent, rfl⟩, ?_⟩
      rw [if_neg hzero, inRange?_eq_some_iff.2 ⟨hfits.unscaled hzero, rfl⟩, Option.bind_some,
        inRange?_eq_some_iff.2 ⟨hfits.scaled hzero, rfl⟩, Option.bind_some]

end Decimal

/-! ## 4. The normal form of a text -/

theorem readExponent?_eq (text : List Char) :
    readExponent? text = (readInteger? (stripPlus text)).bind inRange? := by
  have hsigned : readExponent? text = readSigned? 64 (stripPlus text) := by
    unfold readExponent?
    split
    · rfl
    · rename_i hplus
      rw [stripPlus]
      exact hplus
  rw [hsigned, readSigned?]
  cases readInteger? (stripPlus text) <;> rfl

theorem bind_normalDigits?_eq (negative : Bool) (whole fraction : List Char)
    (exponent? : Option ℤ) :
    (exponent?.bind inRange?).bind (fun exponent =>
      if whole ≠ [] ∧ (whole ++ fraction).all Char.isDigit then
        normalDigits? negative whole fraction exponent
      else none)
    = (exponent?.bind fun exponent =>
        if whole ≠ [] ∧ (whole ++ fraction).all Char.isDigit then
          some (⟨negative, whole, fraction, exponent⟩ : Decimal)
        else none).bind Decimal.normal? := by
  -- Whether the digits are digits does not depend on the exponent.
  rw [Option.bind_assoc, Option.bind_assoc]
  apply Option.bind_congr
  intro exponent _
  by_cases h : whole ≠ [] ∧ (whole ++ fraction).all Char.isDigit
  · simp only [if_pos h]
    rfl
  · simp only [if_neg h]
    exact Option.bind_fun_none _

/-- The normal form of a text is that of the decimal that it spells. -/
theorem normalForm?_eq (text : List Char) :
    normalForm? text = (Decimal.read? text).bind Decimal.normal? := by
  have hmark : (fun c : Char => decide (c = 'e') || decide (c = 'E')) = isMark := rfl
  simp only [normalForm?, Decimal.read?, hmark]
  rcases splitSign text with ⟨negative, magnitude⟩
  rcases splitFirst isMark magnitude with ⟨mantissa, exponentText⟩
  rcases splitFirst (· = '.') mantissa with ⟨whole, fractionText⟩
  cases exponentText with
  | none => exact bind_normalDigits?_eq negative whole (fractionText.getD []) (some 0)
  | some text =>
    show (readExponent? text).bind _ = _
    rw [readExponent?_eq]
    exact bind_normalDigits?_eq negative whole (fractionText.getD []) _

theorem normalForm?_eq_some_iff {w : List Char} {n : NormalForm} :
    normalForm? w = some n ↔ ∃ d, SpellsLoosely w d ∧ d.Fits ∧ d.toNormal = n := by
  rw [normalForm?_eq, Option.bind_eq_some_iff]
  apply exists_congr
  intro d
  rw [read?_eq_some_iff]
  exact and_congr_right fun h => Decimal.normal?_eq_some_iff h.isDigit_of_mem

end JsonAutomata
