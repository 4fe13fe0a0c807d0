import JsonAutomata.Exchange.Datum
import JsonAutomata.Proofs.Json.Decoded
import JsonAutomata.Proofs.Json.RoundTrip
import JsonAutomata.Proofs.Number.Coercions
import Mathlib.Data.List.Forall2

/-!
# Machine forms — decoded values on the terms of other formats

`MachineForm v d` says which document `d` other formats are given for a value `v`: integers in the
range of 64 bits as integers, every other number as a floating-point number, items in their order,
and members in ascending order of their keys.  It has no case in which a number is given as a text.
Every value that decoding gives has the machine form that is computed (`machineForm_of_decode`).
-/

namespace JsonAutomata

open Grammar

/-! ## 1. The form of a value -/

/-- The document is the value, with machine numbers. -/
inductive MachineForm : Value → Datum → Prop
  | null : MachineForm .null .null
  | boolean (b : Bool) : MachineForm (.boolean b) (.boolean b)
  | string (s : String) : MachineForm (.string s) (.text s)
  | integer {n : Number} {k : ℤ} (hform : IntegerText n.lexeme.toList)
      (hvalue : Denotes n.lexeme.toList k) (hrange : InRange k) :
      MachineForm (.number n) (.integer k)
  | float {n : Number} {d : Decimal} (hd : Spells n.lexeme.toList d)
      (hnone : ¬ ∃ k : ℤ, IntegerText n.lexeme.toList ∧ Denotes n.lexeme.toList k ∧ InRange k) :
      MachineForm (.number n) (.float (BinaryFormat.double.roundDecimal d.negative
        (digitsValue d.digits) (d.exponent - d.fraction.length)))
  | array {items : List Value} {data : List Datum} (h : List.Forall₂ MachineForm items data) :
      MachineForm (.array items) (.sequence data)
  | object {members : List (String × Value)} {entries : List (String × Datum)}
      (hkeys : members.map Prod.fst = entries.map Prod.fst) (hascend : Entries.KeysAscend entries)
      (h : List.Forall₂ MachineForm (members.map Prod.snd) (entries.map Prod.snd)) :
      MachineForm (.object members) (.mapping entries)

namespace Value

theorem toDatumItems_eq_map (vs : List Value) : toDatumItems vs = vs.map toDatum := by
  induction vs with
  | nil => rw [toDatumItems, List.map_nil]
  | cons v vs ih => rw [toDatumItems, ih, List.map_cons]

theorem toDatumMembers_eq_map (ms : List (String × Value)) :
    toDatumMembers ms = ms.map fun m => (m.1, m.2.toDatum) := by
  induction ms with
  | nil => rw [toDatumMembers, List.map_nil]
  | cons m ms ih => rw [toDatumMembers, ih, List.map_cons]

end Value

/-! ## 2. Numbers -/

namespace Number

variable {n : Number}

theorem toDatum_eq_integer_iff {k : ℤ} : n.toDatum = .integer k ↔ n.toInt64? = some k := by
  unfold toDatum
  cases n.toInt64? with
  | some i => simp
  | none => cases n.toDouble? <;> simp

theorem toDatum_of_toInt64?_eq_none {d : Decimal} (hd : Spells n.lexeme.toList d)
    (h : n.toInt64? = none) :
    n.toDatum = .float (BinaryFormat.double.roundDecimal d.negative (digitsValue d.digits)
      (d.exponent - d.fraction.length)) := by
  rw [toDatum, h, toDouble?_of_spells hd]

/-- A number has the machine form that is computed. -/
theorem machineForm_toDatum (h : NumberText n.lexeme.toList) :
    MachineForm (.number n) n.toDatum := by
  cases hread : n.toInt64? with
  | some k =>
    obtain ⟨hform, hvalue, hrange⟩ := (toInt64?_eq_some_iff h).1 hread
    rw [toDatum_eq_integer_iff.2 hread]
    exact .integer hform hvalue hrange
  | none =>
    obtain ⟨d, hd⟩ := numberText_iff_spells.1 h
    rw [toDatum_of_toInt64?_eq_none hd hread]
    refine .float hd ?_
    rintro ⟨k, hk⟩
    rw [(toInt64?_eq_some_iff h).2 hk] at hread
    cases hread

end Number

/-! ## 3. Decoded values -/

variable {text : List Char} {v : Value}

theorem machineForm_toDatum_of_decode (h : decode text = .ok v) : MachineForm v v.toDatum := by
  refine decode_induction ?null ?boolean ?number ?string ?array ?object h
  case null => exact .null
  case boolean => exact .boolean
  case number => exact fun n => Number.machineForm_toDatum
  case string => exact .string
  case array =>
    intro items ih
    rw [Value.toDatum, Value.toDatumItems_eq_map]
    refine .array ?_
    rw [List.forall₂_map_right_iff, List.forall₂_same]
    exact ih
  case object =>
    intro members hascend ih
    rw [Value.toDatum, Value.toDatumMembers_eq_map]
    refine .object ?_ ?_ ?_
    · rw [List.map_map]
      rfl
    · exact List.pairwise_map.2 hascend
    · rw [List.map_map, List.forall₂_map_left_iff, List.forall₂_map_right_iff, List.forall₂_same]
      exact ih

/-- Every value that decoding gives has the machine form that is computed.  Each of its numbers is
given as the integer `k` just if it is written without a fraction and an exponent and its exact
value `k` is in the range of 64 bits, otherwise as a floating-point number, and never as a text. -/
theorem machineForm_of_decode (h : decode text = .ok v) :
    MachineForm v v.toDatum ∧ ∀ n ∈ v.numbers,
      (∀ k : ℤ, n.toDatum = .integer k ↔
        n.isInteger = true ∧ Denotes n.lexeme.toList k ∧ InRange k) ∧
      ((∀ k, n.toDatum ≠ .integer k) → ∃ x, n.toDouble? = some x ∧ n.toDatum = .float x) ∧
      ∀ s, n.toDatum ≠ .text s := by
  refine ⟨machineForm_toDatum_of_decode h, fun n hn => ?_⟩
  have hnumber := numberText_of_decode h n hn
  obtain ⟨d, hd⟩ := numberText_iff_spells.1 hnumber
  have hinteger : ∀ k : ℤ, n.toDatum = .integer k ↔
      n.isInteger = true ∧ Denotes n.lexeme.toList k ∧ InRange k := by
    intro k
    rw [Number.toDatum_eq_integer_iff, Number.toInt64?_eq_some_iff hnumber,
      Number.isInteger_iff hnumber]
  have hfloat : (∀ k, n.toDatum ≠ .integer k) →
      ∃ x, n.toDouble? = some x ∧ n.toDatum = .float x := by
    intro hnot
    refine ⟨_, Number.toDouble?_of_spells hd, Number.toDatum_of_toInt64?_eq_none hd ?_⟩
    rw [Option.eq_none_iff_forall_ne_some]
    exact fun k hk => hnot k (Number.toDatum_eq_integer_iff.2 hk)
  refine ⟨hinteger, hfloat, fun s htext => ?_⟩
  obtain ⟨x, -, hx⟩ := hfloat fun k hk => by simp [htext] at hk
  simp [htext] at hx

/-- Zero with a sign, the least integer that is out of range, an integer with an exponent, and a
string of digits. -/
theorem machineForm_of_decode_limits :
    let v : Value := .object [("a", .string "12"),
      ("b", .array [.number ⟨"-0"⟩, .number ⟨"9223372036854775808"⟩, .number ⟨"15e1"⟩])]
    decode v.encode.toList = .ok v ∧ MachineForm v v.toDatum ∧
      Number.toDatum ⟨"-0"⟩ = .integer 0 ∧
      (∃ x, Number.toDatum ⟨"9223372036854775808"⟩ = .float x) ∧
      ∃ x, Number.toDatum ⟨"15e1"⟩ = .float x := by
  intro v
  have hzero : Whole ['0'] := .inl rfl
  have hlarge : Whole "9223372036854775808".toList :=
    .inr ⟨'9', "223372036854775808".toList, by decide, by decide, by decide, by simp [IsDigit]⟩
  have hfifteen : Whole ['1', '5'] := .inr ⟨'1', ['5'], rfl, by decide, by decide, by simp [IsDigit]⟩
  have hminus : Denotes "-0".toList (0 : ℤ) := by
    have htext : "-0".toList = '-' :: ['0'] := by decide
    rw [htext]
    exact hzero.denotes_neg
  have hdenotes : Denotes "9223372036854775808".toList (9223372036854775808 : ℕ) := by
    have hdigits : digitsValue "9223372036854775808".toList = 9223372036854775808 := by decide
    rw [← hdigits]
    exact hlarge.denotes
  have hminusText : IntegerText "-0".toList := ⟨['-'], ['0'], by decide, .inr rfl, hzero⟩
  have hlargeText : IntegerText "9223372036854775808".toList := ⟨[], _, rfl, .inl rfl, hlarge⟩
  have hexponentText : NumberText "15e1".toList :=
    ⟨[], ['1', '5'], [], ['e', '1'], by decide, .inl rfl, hfifteen, .inl rfl,
      .inr ⟨'e', [], ['1'], rfl, .inl rfl, .inl rfl, by decide, by simp [IsDigit]⟩⟩
  have hgrammatical : v.Grammatical := by
    simp only [v, Value.Grammatical, Value.GrammaticalItems, Value.GrammaticalMembers, and_true,
      true_and]
    exact ⟨hminusText.numberText, hlargeText.numberText, hexponentText⟩
  have hsorted : v.Sorted :=
    ⟨List.pairwise_pair.2 (by decide), trivial, ⟨trivial, trivial, trivial, trivial⟩, trivial⟩
  have hdecode : decode v.encode.toList = .ok v := by
    rw [Value.encode, String.toList_ofList]
    exact (decode_write .compact hsorted hgrammatical).1
      (by simp [v, Value.nesting, Value.nestingItems, Value.nestingMembers])
  obtain ⟨hform, hnumbers⟩ := machineForm_of_decode hdecode
  have hmem : ∀ n ∈ [(⟨"-0"⟩ : Number), ⟨"9223372036854775808"⟩, ⟨"15e1"⟩], n ∈ v.numbers := by
    simp [v, Value.numbers, Value.numbersMembers, Value.numbersItems]
  refine ⟨hdecode, hform, ?_, ?_, ?_⟩
  · exact ((hnumbers _ (hmem ⟨"-0"⟩ (by simp))).1 0).2 ⟨by decide, hminus, by decide⟩
  · obtain ⟨hinteger, hfloat, -⟩ := hnumbers _ (hmem ⟨"9223372036854775808"⟩ (by simp))
    obtain ⟨x, -, hx⟩ := hfloat fun k hk => by
      obtain ⟨-, hvalue, hrange⟩ := (hinteger k).1 hk
      have hk : (k : ℚ) = (9223372036854775808 : ℕ) :=
        hlargeText.numberText.denotes_inj hvalue hdenotes
      have hlt : k = 9223372036854775808 := by exact_mod_cast hk
      rw [hlt] at hrange
      exact absurd hrange (by decide)
    exact ⟨x, hx⟩
  · obtain ⟨hinteger, hfloat, -⟩ := hnumbers _ (hmem ⟨"15e1"⟩ (by simp))
    obtain ⟨x, -, hx⟩ := hfloat fun k hk => absurd ((hinteger k).1 hk).1 (by decide)
    exact ⟨x, hx⟩

end JsonAutomata
