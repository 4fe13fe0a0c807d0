import JsonAutomata.Json.ToValue
import JsonAutomata.Proofs.Json.Equivalence
import JsonAutomata.Proofs.Json.RoundTrip
import JsonAutomata.Proofs.Number.Coercions
import JsonAutomata.Proofs.Text.Numerals

/-!
# Integers — from machine numbers to documents and back

An integer is written as a numeral without leading zeros, which is a JSON number of its value
(`integerText_signedNumeral`, `denotes_signedNumeral`).  So decoding what was encoded gives the number
back; it coerces to the integer if 64 bits hold it, and the numbers of two integers are equal just if
the integers are, as equal numbers have the same value (`Number.value_eq_of_beq`).  All of this holds
of integers of any size, so of every width.
-/

namespace JsonAutomata

open Grammar

/-! ## 1. Numerals -/

theorem digits_numeral (n : Nat) : Digits (numeral n) :=
  ⟨numeral_ne_nil n, fun _ hc => isDigit_iff.1 (isDigit_of_mem_numeral hc)⟩

/-- The numeral of a positive number does not begin with a zero. -/
theorem head?_numeral {n : Nat} (h : 0 < n) : (numeral n).head? ≠ some '0' := by
  induction n using Nat.strongRecOn with
  | ind n ih =>
    rw [numeral_eq]
    split
    · rename_i hlt
      have hall : ∀ m < 10, 0 < m → [Nat.digitChar (m % 10)].head? ≠ some '0' := by decide
      exact hall n hlt h
    · rename_i hge
      rw [List.head?_append_of_ne_nil _ (digits_numeral _).1]
      exact ih (n / 10) (by omega) (by omega)

theorem whole_numeral (n : Nat) : Whole (numeral n) := by
  by_cases hzero : n = 0
  · subst hzero
    exact .inl rfl
  · obtain ⟨c, ds, hcons⟩ := List.exists_cons_of_ne_nil (digits_numeral n).1
    have hhead := head?_numeral (Nat.pos_of_ne_zero hzero)
    rw [hcons] at hhead
    refine .inr ⟨c, ds, hcons, ?_, digits_numeral n⟩
    rintro rfl
    exact hhead rfl

theorem integerText_signedNumeral (i : ℤ) : IntegerText (signedNumeral i) := by
  cases i with
  | ofNat n => exact ⟨[], numeral n, rfl, .inl rfl, whole_numeral n⟩
  | negSucc n => exact ⟨['-'], numeral (n + 1), rfl, .inr rfl, whole_numeral (n + 1)⟩

theorem denotes_signedNumeral (i : ℤ) : Denotes (signedNumeral i) i := by
  cases i with
  | ofNat n =>
    have hdenotes := (whole_numeral n).denotes
    rwa [digitsValue_numeral] at hdenotes
  | negSucc n =>
    have hdenotes := (whole_numeral (n + 1)).denotes_neg
    rwa [digitsValue_numeral] at hdenotes

/-! ## 2. Equal numbers -/

namespace Number

theorem value_eq_of_beq {a b : Number} {x y : ℚ} (ha : Denotes a.lexeme.toList x)
    (hb : Denotes b.lexeme.toList y) (h : (a == b) = true) : x = y := by
  obtain ⟨d, hd, rfl⟩ := ha
  obtain ⟨e, he, rfl⟩ := hb
  rcases beq_iff.1 h with htext | ⟨n, hn, hm⟩
  · rw [hd.loosely.unique (htext ▸ he.loosely)]
  · obtain ⟨-, hdn⟩ := (normal?_eq_some_iff hd.loosely).1 hn
    obtain ⟨-, hen⟩ := (normal?_eq_some_iff he.loosely).1 hm
    exact (Decimal.toNormal_eq_iff hd.loosely.isDigit_of_mem he.loosely.isDigit_of_mem).1
      (hdn.trans hen.symm)

/-! ## 3. Encoded integers -/

def ofInt (i : ℤ) : Number := ⟨String.ofList (signedNumeral i)⟩

theorem toList_lexeme_ofInt (i : ℤ) : (ofInt i).lexeme.toList = signedNumeral i :=
  String.toList_ofList

theorem integerText_ofInt (i : ℤ) : IntegerText (ofInt i).lexeme.toList := by
  rw [toList_lexeme_ofInt]
  exact integerText_signedNumeral i

theorem denotes_ofInt_iff {i k : ℤ} : Denotes (ofInt i).lexeme.toList k ↔ k = i := by
  have hi : Denotes (ofInt i).lexeme.toList i := by
    rw [toList_lexeme_ofInt]
    exact denotes_signedNumeral i
  constructor
  · intro hk
    exact_mod_cast (integerText_ofInt i).numberText.denotes_inj hk hi
  · rintro rfl
    exact hi

theorem toInt64?_ofInt (i : ℤ) : (ofInt i).toInt64? = if InRange i then some i else none := by
  have hsome : ∀ k, (ofInt i).toInt64? = some k ↔ k = i ∧ InRange k := by
    intro k
    rw [toInt64?_eq_some_iff (integerText_ofInt i).numberText, denotes_ofInt_iff]
    exact and_iff_right (integerText_ofInt i)
  split
  · rename_i hrange
    exact (hsome i).2 ⟨rfl, hrange⟩
  · rename_i hrange
    rw [Option.eq_none_iff_forall_ne_some]
    intro k hk
    obtain ⟨rfl, hin⟩ := (hsome k).1 hk
    exact hrange hin

theorem ofInt_beq_iff {i j : ℤ} : (ofInt i == ofInt j) = true ↔ i = j := by
  constructor
  · intro h
    exact_mod_cast value_eq_of_beq (denotes_ofInt_iff.2 rfl) (denotes_ofInt_iff.2 rfl) h
  · rintro rfl
    exact beq_refl _

end Number

theorem decode_encode_ofInt (i : ℤ) :
    decode (toValue i).encode.toList = .ok (.number (.ofInt i)) := by
  have hencode : (toValue i).encode.toList = (Value.number (.ofInt i)).write .compact :=
    String.toList_ofList
  have hsorted : (Value.number (.ofInt i)).Sorted := trivial
  have hnesting : (Value.number (.ofInt i)).nesting ≤ 128 := Nat.zero_le _
  rw [hencode]
  exact (decode_write .compact hsorted (Number.integerText_ofInt i).numberText).1 hnesting

/-- Decoding an encoded integer gives a number that coerces to the integer if it is in the range of
64 bits, and to none if it is not.  The numbers of two integers are equal just if the integers
are.  An unsigned number is written as the integer that it is. -/
theorem decode_encode_integers :
    (∀ n : ℕ, toValue n = toValue (n : ℤ)) ∧
      ∀ i j : ℤ, ∃ n m : Number, decode (toValue i).encode.toList = .ok (.number n) ∧
        decode (toValue j).encode.toList = .ok (.number m) ∧
        n.toInt64? = (if InRange i then some i else none) ∧ ((n == m) = true ↔ i = j) := by
  refine ⟨fun n => rfl, fun i j => ?_⟩
  exact ⟨.ofInt i, .ofInt j, decode_encode_ofInt i, decode_encode_ofInt j, Number.toInt64?_ofInt i,
    Number.ofInt_beq_iff⟩

end JsonAutomata
