import JsonAutomata.Proofs.Json.Values
import JsonAutomata.Proofs.Number.Equality

/-!
# Equivalence — equality of values

What is equal to a value has the same form: arrays are equal item by item and objects member by
member (`array_beq_iff`, `object_beq_iff`), down to the numbers.  Two numbers are equal if they are
the same text or have the same normal form, and a text determines whether it has one
(`Number.beq_iff`), so a number without a normal form is never between two others.  Equality of
numbers is an equivalence, and so is that of values, by induction on the first one.
-/

namespace JsonAutomata

/-! ## 1. Numbers -/

namespace Number

variable {a b c : Number}

theorem beq_refl (a : Number) : (a == a) = true := beq_iff.2 (.inl rfl)

theorem beq_symm (h : (a == b) = true) : (b == a) = true := by
  rcases beq_iff.1 h with h | ⟨n, ha, hb⟩
  · exact beq_iff.2 (.inl h.symm)
  · exact beq_iff.2 (.inr ⟨n, hb, ha⟩)

theorem normal?_eq_of_lexeme_eq (h : a.lexeme = b.lexeme) : a.normal? = b.normal? := by
  rw [normal?, normal?, h]

theorem beq_trans (hab : (a == b) = true) (hbc : (b == c) = true) : (a == c) = true := by
  rcases beq_iff.1 hab with hab | ⟨n, ha, hb⟩
  · rcases beq_iff.1 hbc with hbc | ⟨m, hb, hc⟩
    · exact beq_iff.2 (.inl (hab.trans hbc))
    · exact beq_iff.2 (.inr ⟨m, (normal?_eq_of_lexeme_eq hab).trans hb, hc⟩)
  · rcases beq_iff.1 hbc with hbc | ⟨m, hb', hc⟩
    · exact beq_iff.2 (.inr ⟨n, ha, (normal?_eq_of_lexeme_eq hbc).symm.trans hb⟩)
    · -- The number in the middle has one normal form.
      have hnm : n = m := Option.some.inj (hb.symm.trans hb')
      exact beq_iff.2 (.inr ⟨n, ha, hnm ▸ hc⟩)

instance : EquivBEq Number where
  rfl := beq_refl _
  symm := beq_symm
  trans := beq_trans

end Number

namespace Value

/-! ## 2. What is equal to a value -/

abbrev SameItems (as bs : List Value) : Prop := List.Forall₂ (fun a b => (a == b) = true) as bs

abbrev SameMembers (as bs : List (String × Value)) : Prop :=
  List.Forall₂ (fun a b => a.1 = b.1 ∧ (a.2 == b.2) = true) as bs

theorem beqItems_iff {as bs : List Value} : beqItems as bs = true ↔ SameItems as bs := by
  induction as generalizing bs with
  | nil =>
    cases bs with
    | nil => exact ⟨fun _ => .nil, fun _ => rfl⟩
    | cons b bs => exact ⟨nofun, nofun⟩
  | cons a as ih =>
    cases bs with
    | nil => exact ⟨nofun, nofun⟩
    | cons b bs =>
      rw [beqItems, Bool.and_eq_true, ih]
      constructor
      · rintro ⟨hab, hrest⟩
        exact .cons hab hrest
      · rintro (_ | ⟨hab, hrest⟩)
        exact ⟨hab, hrest⟩

theorem beqMembers_iff {as bs : List (String × Value)} :
    beqMembers as bs = true ↔ SameMembers as bs := by
  induction as generalizing bs with
  | nil =>
    cases bs with
    | nil => exact ⟨fun _ => .nil, fun _ => rfl⟩
    | cons b bs => exact ⟨nofun, nofun⟩
  | cons a as ih =>
    cases bs with
    | nil => exact ⟨nofun, nofun⟩
    | cons b bs =>
      rw [beqMembers, Bool.and_eq_true, Bool.and_eq_true, decide_eq_true_eq, ih]
      constructor
      · rintro ⟨hab, hrest⟩
        exact .cons hab hrest
      · rintro (_ | ⟨hab, hrest⟩)
        exact ⟨hab, hrest⟩

variable {v : Value}

theorem null_beq_iff : (Value.null == v) = true ↔ v = .null := by
  cases v <;> simp [BEq.beq, beq]

theorem boolean_beq_iff {b : Bool} : (Value.boolean b == v) = true ↔ v = .boolean b := by
  cases v <;> simp [BEq.beq, beq, eq_comm]

theorem string_beq_iff {s : String} : (Value.string s == v) = true ↔ v = .string s := by
  cases v <;> simp [BEq.beq, beq, eq_comm]

theorem number_beq_iff {n : Number} :
    (Value.number n == v) = true ↔ ∃ m, v = .number m ∧ (n == m) = true := by
  cases v <;> simp [BEq.beq, beq]

theorem array_beq_iff {as : List Value} :
    (Value.array as == v) = true ↔ ∃ bs, v = .array bs ∧ SameItems as bs := by
  simp only [← beqItems_iff]
  cases v <;> simp [BEq.beq, beq]

theorem object_beq_iff {as : List (String × Value)} :
    (Value.object as == v) = true ↔ ∃ bs, v = .object bs ∧ SameMembers as bs := by
  simp only [← beqMembers_iff]
  cases v <;> simp [BEq.beq, beq]

/-! ## 3. The equivalence -/

theorem beq_refl (v : Value) : (v == v) = true := by
  induction v using Value.induction with
  | null => exact null_beq_iff.2 rfl
  | boolean b => exact boolean_beq_iff.2 rfl
  | string s => exact string_beq_iff.2 rfl
  | number n => exact number_beq_iff.2 ⟨n, rfl, n.beq_refl⟩
  | array items ih => exact array_beq_iff.2 ⟨items, rfl, List.forall₂_same.2 ih⟩
  | object members ih =>
    exact object_beq_iff.2 ⟨members, rfl, List.forall₂_same.2 fun m hm => ⟨rfl, ih m hm⟩⟩

theorem beq_symm {a b : Value} (h : (a == b) = true) : (b == a) = true := by
  induction a using Value.induction generalizing b with
  | null =>
    rw [null_beq_iff.1 h]
    exact beq_refl _
  | boolean x =>
    rw [boolean_beq_iff.1 h]
    exact beq_refl _
  | string s =>
    rw [string_beq_iff.1 h]
    exact beq_refl _
  | number n =>
    obtain ⟨m, rfl, hnm⟩ := number_beq_iff.1 h
    exact number_beq_iff.2 ⟨n, rfl, Number.beq_symm hnm⟩
  | array items ih =>
    obtain ⟨others, rfl, hsame⟩ := array_beq_iff.1 h
    exact array_beq_iff.2 ⟨items, rfl, forall₂_symm_of_mem hsame fun a ha b hab => ih a ha hab⟩
  | object members ih =>
    obtain ⟨others, rfl, hsame⟩ := object_beq_iff.1 h
    exact object_beq_iff.2 ⟨members, rfl,
      forall₂_symm_of_mem hsame fun m hm _ hab => ⟨hab.1.symm, ih m hm hab.2⟩⟩

theorem beq_trans {a b c : Value} (hab : (a == b) = true) (hbc : (b == c) = true) :
    (a == c) = true := by
  induction a using Value.induction generalizing b c with
  | null => rwa [null_beq_iff.1 hab] at hbc
  | boolean x => rwa [boolean_beq_iff.1 hab] at hbc
  | string s => rwa [string_beq_iff.1 hab] at hbc
  | number n =>
    obtain ⟨m, rfl, hnm⟩ := number_beq_iff.1 hab
    obtain ⟨l, rfl, hml⟩ := number_beq_iff.1 hbc
    exact number_beq_iff.2 ⟨l, rfl, Number.beq_trans hnm hml⟩
  | array items ih =>
    obtain ⟨others, rfl, hsame⟩ := array_beq_iff.1 hab
    obtain ⟨more, rfl, hsame'⟩ := array_beq_iff.1 hbc
    exact array_beq_iff.2 ⟨more, rfl,
      forall₂_trans_of_mem hsame hsame' fun a ha _ _ hab hbc => ih a ha hab hbc⟩
  | object members ih =>
    obtain ⟨others, rfl, hsame⟩ := object_beq_iff.1 hab
    obtain ⟨more, rfl, hsame'⟩ := object_beq_iff.1 hbc
    exact object_beq_iff.2 ⟨more, rfl, forall₂_trans_of_mem hsame hsame'
      fun m hm _ _ hab hbc => ⟨hab.1.trans hbc.1, ih m hm hab.2 hbc.2⟩⟩

instance : EquivBEq Value where
  rfl := beq_refl _
  symm := beq_symm
  trans := beq_trans

/-- Equality is an equivalence on all values, whatever the texts of their numbers.  It holds of
numbers that are the same text or have the same normal form, of arrays item by item, and of objects
member by member. -/
theorem equivalence_beq :
    (Equivalence fun a b : Value => (a == b) = true) ∧
      (∀ n m : Number, (Value.number n == .number m) = true ↔
        n.lexeme = m.lexeme ∨ ∃ form, n.normal? = some form ∧ m.normal? = some form) ∧
      (∀ as bs, (Value.array as == .array bs) = true ↔ SameItems as bs) ∧
      ∀ as bs, (Value.object as == .object bs) = true ↔ SameMembers as bs := by
  refine ⟨⟨beq_refl, beq_symm, beq_trans⟩, fun n m => ?_, fun as bs => ?_, fun as bs => ?_⟩
  · exact Number.beq_iff
  · exact beqItems_iff
  · exact beqMembers_iff

end Value

end JsonAutomata
