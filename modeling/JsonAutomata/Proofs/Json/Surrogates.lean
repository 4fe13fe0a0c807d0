import JsonAutomata.Proofs.Json.Cursor

/-!
# Surrogates — strings as UTF-16

A word of the string pattern spells one 16-bit unit with each of its parts, whether or not the units
are UTF-16.  Unescaping decides just that: it gives the string with these units, or points at the
first escape whose surrogate has no partner (`unescape_decodes_utf16`).
-/

namespace JsonAutomata

open Grammar

/-! ## 1. Sequences of units -/

namespace Utf16

/-- The `k`-th unit is a surrogate without a partner: no low one follows a high one, or no high one
precedes a low one. -/
def Unpaired (units : List Nat) (k : Nat) : Prop :=
  (∃ high, units[k]? = some high ∧ HighSurrogate high ∧
    ∀ low, units[k + 1]? = some low → ¬ LowSurrogate low) ∨
  ∃ low, units[k]? = some low ∧ LowSurrogate low ∧
    ∀ j high, j + 1 = k → units[j]? = some high → ¬ HighSurrogate high

def FirstUnpaired (units : List Nat) (k : Nat) : Prop :=
  Unpaired units k ∧ ∀ j < k, ¬ Unpaired units j

def WellFormed (units : List Nat) : Prop := ∀ k, ¬ Unpaired units k

variable {u : Nat} {us : List Nat} {k : Nat} {c : Char}

theorem not_low_of_high (h : HighSurrogate u) : ¬ LowSurrogate u := by
  unfold HighSurrogate at h
  unfold LowSurrogate
  omega

/-- Whether a unit has a partner does not depend on units before the one in front of it. -/
theorem unpaired_cons_iff (hu : k = 0 → ¬ HighSurrogate u) :
    Unpaired (u :: us) (k + 1) ↔ Unpaired us k := by
  have hlow : (∀ j high, j + 1 = k + 1 → (u :: us)[j]? = some high → ¬ HighSurrogate high) ↔
      ∀ j high, j + 1 = k → us[j]? = some high → ¬ HighSurrogate high := by
    constructor
    · intro h j high hj hhigh
      exact h (j + 1) high (congrArg (· + 1) hj) hhigh
    · intro h j high hj hhigh
      cases j with
      | zero =>
        cases hhigh
        exact hu (Nat.succ.inj hj).symm
      | succ j => exact h j high (Nat.succ.inj hj) hhigh
  unfold Unpaired
  rw [List.getElem?_cons_succ, List.getElem?_cons_succ, hlow]

theorem not_unpaired_zero (hhigh : ¬ HighSurrogate u) (hlow : ¬ LowSurrogate u) :
    ¬ Unpaired (u :: us) 0 := by
  rintro (⟨_, h, hu, -⟩ | ⟨_, h, hu, -⟩)
  · cases h
    exact hhigh hu
  · cases h
    exact hlow hu

theorem not_unpaired_pair {l : Nat} (us : List Nat) (hhigh : HighSurrogate u)
    (hlow : LowSurrogate l) :
    ¬ Unpaired (u :: l :: us) 0 ∧ ¬ Unpaired (u :: l :: us) 1 := by
  constructor
  · rintro (⟨_, -, -, h⟩ | ⟨_, h, hu, -⟩)
    · exact h l rfl hlow
    · cases h
      exact not_low_of_high hhigh hu
  · rintro (⟨_, h, hl, -⟩ | ⟨_, -, -, h⟩)
    · cases h
      exact not_low_of_high hl hlow
    · exact h 0 u rfl rfl hhigh

theorem units_of_lt (h : c.toNat < 0x10000) : units c = [c.toNat] := if_pos h

theorem units_of_le (h : 0x10000 ≤ c.toNat) : units c = [high c.toNat, low c.toNat] :=
  if_neg (Nat.not_lt.2 h)

theorem not_surrogate_toNat (c : Char) : ¬ HighSurrogate c.toNat ∧ ¬ LowSurrogate c.toNat := by
  have hvalid : c.toNat.isValidChar := c.valid
  unfold HighSurrogate LowSurrogate
  unfold Nat.isValidChar at hvalid
  omega

/-- The units of a character are paired among themselves. -/
theorem unpaired_units_append (c : Char) (us : List Nat) :
    (∀ j < (units c).length, ¬ Unpaired (units c ++ us) j) ∧
    ∀ k, Unpaired (units c ++ us) ((units c).length + k) ↔ Unpaired us k := by
  rcases Nat.lt_or_ge c.toNat 0x10000 with hlt | hge
  · rcases not_surrogate_toNat c with ⟨hhigh, hlow⟩
    rw [units_of_lt hlt]
    constructor
    · intro j hj
      rcases Nat.lt_one_iff.1 hj with rfl
      exact not_unpaired_zero hhigh hlow
    · intro k
      rw [List.length_singleton, Nat.add_comm]
      exact unpaired_cons_iff fun _ => hhigh
  · have hvalid : c.toNat.isValidChar := c.valid
    have hlt : c.toNat < 0x110000 := by
      unfold Nat.isValidChar at hvalid
      omega
    have hhigh := isHigh_iff.1 (isHigh_high hlt)
    have hlow := isLow_iff.1 (isLow_low c.toNat)
    rw [units_of_le hge]
    rcases not_unpaired_pair us hhigh hlow with ⟨hfirst, hsecond⟩
    constructor
    · intro j hj
      have hj : j < 2 := hj
      rcases (by omega : j = 0 ∨ j = 1) with rfl | rfl
      · exact hfirst
      · exact hsecond
    · intro k
      show Unpaired _ (2 + k) ↔ _
      rw [Nat.add_comm]
      have hsecond : Unpaired (low c.toNat :: us) (k + 1) ↔ Unpaired us k :=
        unpaired_cons_iff fun _ h => not_low_of_high h hlow
      exact (unpaired_cons_iff (fun h => absurd h (Nat.succ_ne_zero k))).trans hsecond

end Utf16

/-! ## 2. Spellings -/

/-- A character of the pattern, a short escape, or `\u` with four digits spells a unit. -/
inductive SpellsUnit : List Char → Nat → Prop
  | plain {c : Char} (hc : IsPlain c) : SpellsUnit [c] c.toNat
  | short {e c : Char} (he : (e, c) ∈ shortEscapes) : SpellsUnit ['\\', e] c.toNat
  | escape {w : List Char} {n : Nat} (hn : HexUnit w n) : SpellsUnit ('\\' :: 'u' :: w) n

def spelledText (parts : List (List Char × Nat)) : List Char := parts.flatMap Prod.fst

def spelledUnits (parts : List (List Char × Nat)) : List Nat := parts.map Prod.snd

/-- The text consists of the parts, each of which spells its unit. -/
structure Spelling (text : List Char) (parts : List (List Char × Nat)) : Prop where
  text_eq : text = spelledText parts
  spells : ∀ p ∈ parts, SpellsUnit p.1 p.2

variable {x w : List Char} {n offset : Nat} {c : Char} {parts : List (List Char × Nat)}
  {p : List Char × Nat}

theorem spelling_cons_iff : Spelling x (p :: parts) ↔
    SpellsUnit p.1 p.2 ∧ ∃ rest, x = p.1 ++ rest ∧ Spelling rest parts := by
  constructor
  · rintro ⟨rfl, h⟩
    exact ⟨h p List.mem_cons_self, spelledText parts, rfl, rfl,
      fun q hq => h q (List.mem_cons_of_mem p hq)⟩
  · rintro ⟨hp, rest, rfl, rfl, h⟩
    refine ⟨rfl, fun q hq => ?_⟩
    rcases List.mem_cons.1 hq with rfl | hq
    · exact hp
    · exact h q hq

theorem exists_spelling (h : RawBody x) : ∃ parts, Spelling x parts := by
  induction h with
  | nil => exact ⟨[], rfl, fun p hp => absurd hp List.not_mem_nil⟩
  | @plain c x hc _ ih =>
    rcases ih with ⟨parts, hparts⟩
    exact ⟨([c], _) :: parts, spelling_cons_iff.2 ⟨.plain hc, x, rfl, hparts⟩⟩
  | @short e x he _ ih =>
    rcases ih with ⟨parts, hparts⟩
    rcases Unescape.exists_shortEscape he with ⟨c, hc⟩
    exact ⟨(['\\', e], _) :: parts, spelling_cons_iff.2 ⟨.short hc, x, rfl, hparts⟩⟩
  | @unit h1 h2 h3 h4 x ha hb hc hd _ ih =>
    rcases ih with ⟨parts, hparts⟩
    rcases exists_hexUnit ha hb hc hd with ⟨n, hn⟩
    exact ⟨('\\' :: 'u' :: [h1, h2, h3, h4], n) :: parts,
      spelling_cons_iff.2 ⟨.escape hn, x, rfl, hparts⟩⟩

/-! ## 3. Resolving -/

section Resolving

open Unescape

theorem resolve_lone (hn : HexUnit w n) (hlow : LowSurrogate n) :
    resolve offset ('\\' :: 'u' :: (w ++ x)) = invalid ('\\' :: 'u' :: (w ++ x)) 6 offset := by
  have hhigh : ¬ Utf16.isHigh n = true := fun h => Utf16.not_low_of_high (isHigh_iff.1 h) hlow
  rcases hn.exists_hex with ⟨h1, h2, h3, h4, rfl, -⟩
  simp only [List.cons_append, List.nil_append]
  rw [resolve.eq_def]
  simp only [ne_eq, not_true_eq_false, if_false, hexNumber?_eq_some_iff.2 hn, hhigh,
    isLow_iff.2 hlow, Bool.false_eq_true, if_true]

theorem resolve_unpaired (hn : HexUnit w n) (hhigh : HighSurrogate n)
    (hx : (unit? x).filter Utf16.isLow = none) :
    resolve offset ('\\' :: 'u' :: (w ++ x)) = invalid ('\\' :: 'u' :: (w ++ x)) 12 offset := by
  rcases hn.exists_hex with ⟨h1, h2, h3, h4, rfl, -⟩
  simp only [List.cons_append, List.nil_append]
  rw [resolve.eq_def]
  simp only [ne_eq, not_true_eq_false, if_false, hexNumber?_eq_some_iff.2 hn, isHigh_iff.2 hhigh,
    if_true]
  split
  · rename_i l1 l2 l3 l4 after
    have hlow : (hexNumber? [l1, l2, l3, l4]).filter Utf16.isLow = none := hx
    rw [hlow]
  · rfl

/-- Resolving gives the characters with the units of the parts, or points at the first unit without
a partner. -/
def Decodes (offset : Nat) (parts : List (List Char × Nat)) : Prop :=
  (Utf16.WellFormed (spelledUnits parts) ∧
    ∃ s, resolve offset (spelledText parts) = .ok s ∧ Utf16.encode s = spelledUnits parts) ∨
  ∃ k length, 6 ≤ length ∧ Utf16.FirstUnpaired (spelledUnits parts) k ∧
    resolve offset (spelledText parts) = invalid (spelledText (parts.drop k)) length
      (offset + Utf8.byteLength (spelledText (parts.take k)))

theorem spelledText_append (front parts : List (List Char × Nat)) :
    spelledText (front ++ parts) = spelledText front ++ spelledText parts :=
  List.flatMap_append

theorem decodes_nil : Decodes offset [] := by
  refine .inl ⟨fun k hk => ?_, [], rfl, rfl⟩
  rcases hk with ⟨_, h, -⟩ | ⟨_, h, -⟩ <;> cases h

/-- Parts that spell a character in front of what is resolved. -/
theorem Decodes.append (front : List (List Char × Nat))
    (h : Decodes (offset + Utf8.byteLength (spelledText front)) parts)
    (hunits : spelledUnits front = Utf16.units c)
    (hresolve : resolve offset (spelledText front ++ spelledText parts)
      = (resolve (offset + Utf8.byteLength (spelledText front)) (spelledText parts)).map (c :: ·)) :
    Decodes offset (front ++ parts) := by
  have hlength : front.length = (Utf16.units c).length := by
    rw [← hunits, spelledUnits, List.length_map]
  have happend : spelledUnits (front ++ parts) = Utf16.units c ++ spelledUnits parts := by
    rw [← hunits]
    exact List.map_append
  rcases Utf16.unpaired_units_append c (spelledUnits parts) with ⟨hfront, hbehind⟩
  unfold Decodes
  rw [happend, spelledText_append, hresolve]
  rcases h with ⟨hformed, s, hs, hencode⟩ | ⟨k, length, hle, ⟨hk, hfirst⟩, herror⟩
  · refine .inl ⟨fun k hk => ?_, c :: s, ?_, ?_⟩
    · rcases Nat.lt_or_ge k (Utf16.units c).length with hlt | hge
      · exact hfront k hlt hk
      · rcases Nat.exists_eq_add_of_le hge with ⟨j, rfl⟩
        exact hformed j ((hbehind j).1 hk)
    · rw [hs]
      rfl
    · rw [← hencode]
      rfl
  · refine .inr ⟨front.length + k, length, hle, ⟨?_, fun j hj hunpaired => ?_⟩, ?_⟩
    · rw [hlength]
      exact (hbehind k).2 hk
    · rcases Nat.lt_or_ge j (Utf16.units c).length with hlt | hge
      · exact hfront j hlt hunpaired
      · rcases Nat.exists_eq_add_of_le hge with ⟨i, rfl⟩
        exact hfirst i (by omega) ((hbehind i).1 hunpaired)
    · rw [herror, List.drop_length_add_append, List.take_length_add_append, spelledText_append,
        Utf8.byteLength_append, Nat.add_assoc]
      rfl

theorem decodes_refused {length : Nat} (hle : 6 ≤ length)
    (hunpaired : Utf16.Unpaired (spelledUnits parts) 0)
    (herror : resolve offset (spelledText parts) = invalid (spelledText parts) length offset) :
    Decodes offset parts :=
  .inr ⟨0, length, hle, ⟨hunpaired, fun _ hj => absurd hj (Nat.not_lt_zero _)⟩, herror⟩

theorem toNat_ofNat_of_valid (h : n.isValidChar) : (Char.ofNat n).toNat = n := by
  rw [Char.ofNat, dif_pos h]
  rfl

theorem units_pair {m : Nat} (hhigh : HighSurrogate n) (hlow : LowSurrogate m) :
    Utf16.units (Char.ofNat (Utf16.combine n m)) = [n, m] := by
  have hcode := toNat_ofNat_of_valid (isValidChar_combine hhigh hlow)
  have hge : 0x10000 ≤ (Char.ofNat (Utf16.combine n m)).toNat := by
    rw [hcode]
    unfold Utf16.combine
    omega
  rw [Utf16.units_of_le hge, hcode, Utf16.high_combine (isHigh_iff.2 hhigh) (isLow_iff.2 hlow),
    Utf16.low_combine n (isLow_iff.2 hlow)]

theorem escape_of_surrogate {piece : List Char} (h : SpellsUnit piece n)
    (hn : HighSurrogate n ∨ LowSurrogate n) : ∃ w, piece = '\\' :: 'u' :: w ∧ HexUnit w n := by
  cases h with
  | @plain c hc =>
    rcases Utf16.not_surrogate_toNat c with ⟨hhigh, hlow⟩
    exact absurd hn (not_or.2 ⟨hhigh, hlow⟩)
  | @short e c he =>
    rcases Utf16.not_surrogate_toNat c with ⟨hhigh, hlow⟩
    exact absurd hn (not_or.2 ⟨hhigh, hlow⟩)
  | escape hn => exact ⟨_, rfl, hn⟩

theorem unit?_of_not_low {piece : List Char} (h : SpellsUnit piece n) (hlow : ¬ LowSurrogate n)
    (x : List Char) : (unit? (piece ++ x)).filter Utf16.isLow = none := by
  have hnone : ∀ {y : List Char}, (∀ rest, y ≠ '\\' :: 'u' :: rest) → unit? y = none := by
    intro y hy
    unfold unit?
    split
    · exact absurd rfl (hy _)
    · rfl
  cases h with
  | @plain c hc =>
    have hunit : unit? ([c] ++ x) = none := hnone fun rest h => hc.2.2 (List.cons.inj h).1
    rw [hunit]
    rfl
  | @short e c he =>
    have hne : ∀ p ∈ shortEscapes, p.1 ≠ 'u' := by decide
    have hunit : unit? (['\\', e] ++ x) = none :=
      hnone fun rest h => hne (e, c) he (List.cons.inj (List.cons.inj h).2).1
    rw [hunit]
    rfl
  | escape hn =>
    rw [List.cons_append, List.cons_append, unit?_of_hexUnit hn]
    exact Option.filter_some_neg (Bool.not_eq_true _ ▸ isLow_iff.not.2 hlow)

theorem resolve_single (hn : HexUnit w n) (hhigh : ¬ HighSurrogate n) (hlow : ¬ LowSurrogate n) :
    resolve offset ('\\' :: 'u' :: (w ++ x))
      = (resolve (offset + 6) x).map (Char.ofNat n :: ·) := by
  rcases hn.exists_hex with ⟨h1, h2, h3, h4, rfl, -⟩
  exact resolve_unit hn hhigh hlow

theorem resolve_combine {v : List Char} {m : Nat} (hn : HexUnit w n) (hm : HexUnit v m)
    (hhigh : HighSurrogate n) (hlow : LowSurrogate m) :
    resolve offset ('\\' :: 'u' :: (w ++ '\\' :: 'u' :: (v ++ x)))
      = (resolve (offset + 12) x).map (Char.ofNat (Utf16.combine n m) :: ·) := by
  rcases hn.exists_hex with ⟨h1, h2, h3, h4, rfl, -⟩
  rcases hm.exists_hex with ⟨l1, l2, l3, l4, rfl, -⟩
  rw [combine_eq]
  exact resolve_pair hn hm hhigh hlow

theorem spelledText_singleton (p : List Char × Nat) : spelledText [p] = p.1 := List.append_nil p.1

theorem decodes_plain (hc : IsPlain c) (h : ∀ offset, Decodes offset parts) :
    Decodes offset (([c], c.toNat) :: parts) := by
  have hlt : c.toNat < 0x10000 := Nat.lt_of_le_of_lt hc.1.2 (by decide)
  exact (h _).append [([c], c.toNat)] (Utf16.units_of_lt hlt).symm (resolve_cons_of_ne hc.2.2)

theorem decodes_short {e : Char} (he : (e, c) ∈ shortEscapes) (h : ∀ offset, Decodes offset parts) :
    Decodes offset ((['\\', e], c.toNat) :: parts) := by
  have hall : ∀ p ∈ shortEscapes, p.2.toNat < 0x10000 ∧ Utf8.byteLength ['\\', p.1] = 2 := by
    decide
  rcases hall (e, c) he with ⟨hlt, hsize⟩
  apply (h _).append [(['\\', e], c.toNat)] (Utf16.units_of_lt hlt).symm
  rw [spelledText_singleton, hsize]
  exact resolve_short he

theorem decodes_single (hn : HexUnit w n) (hhigh : ¬ HighSurrogate n) (hlow : ¬ LowSurrogate n)
    (h : ∀ offset, Decodes offset parts) : Decodes offset (('\\' :: 'u' :: w, n) :: parts) := by
  have hcode := toNat_ofNat_of_valid (isValidChar_of_hexUnit hn hhigh hlow)
  have hunits : spelledUnits [('\\' :: 'u' :: w, n)] = Utf16.units (Char.ofNat n) := by
    rw [Utf16.units_of_lt (hcode.symm ▸ lt_of_hexUnit hn), hcode]
    rfl
  apply (h _).append [('\\' :: 'u' :: w, n)] hunits
  rw [spelledText_singleton, (length_escape hn).2]
  exact resolve_single hn hhigh hlow

theorem decodes_lone (hn : HexUnit w n) (hlow : LowSurrogate n) :
    Decodes offset (('\\' :: 'u' :: w, n) :: parts) := by
  refine decodes_refused (Nat.le_refl 6) (.inr ⟨n, rfl, hlow, fun j _ hj => ?_⟩)
    (resolve_lone hn hlow)
  exact absurd hj (Nat.succ_ne_zero j)

theorem decodes_pair {v : List Char} {m : Nat} (hn : HexUnit w n) (hm : HexUnit v m)
    (hhigh : HighSurrogate n) (hlow : LowSurrogate m) (h : ∀ offset, Decodes offset parts) :
    Decodes offset (('\\' :: 'u' :: w, n) :: ('\\' :: 'u' :: v, m) :: parts) := by
  have htext : spelledText [('\\' :: 'u' :: w, n), ('\\' :: 'u' :: v, m)]
      = ('\\' :: 'u' :: w) ++ '\\' :: 'u' :: v := by
    simp [spelledText]
  apply (h _).append [('\\' :: 'u' :: w, n), ('\\' :: 'u' :: v, m)] (units_pair hhigh hlow).symm
  rw [htext, Utf8.byteLength_append, (length_escape hn).2, (length_escape hm).2, List.append_assoc]
  exact resolve_combine hn hm hhigh hlow

/-- A high surrogate at the end, or in front of anything but a low one. -/
theorem decodes_unpaired (hn : HexUnit w n) (hhigh : HighSurrogate n)
    (hnext : ∀ q ∈ parts.head?, SpellsUnit q.1 q.2 ∧ ¬ LowSurrogate q.2) :
    Decodes offset (('\\' :: 'u' :: w, n) :: parts) := by
  have hle : 6 ≤ 12 := by decide
  cases parts with
  | nil =>
    refine decodes_refused hle (.inl ⟨n, rfl, hhigh, fun low h => ?_⟩)
      (resolve_unpaired hn hhigh rfl)
    cases h
  | cons q parts =>
    rcases hnext q rfl with ⟨hq, hlow⟩
    refine decodes_refused hle (.inl ⟨n, rfl, hhigh, fun low h => ?_⟩)
      (resolve_unpaired hn hhigh (unit?_of_not_low hq hlow _))
    cases h
    exact hlow

theorem decodes (h : ∀ p ∈ parts, SpellsUnit p.1 p.2) (offset : Nat) : Decodes offset parts := by
  -- A pair takes two parts at once.
  induction hlength : parts.length using Nat.strong_induction_on generalizing offset parts with
  | _ length ih =>
    cases parts with
    | nil => exact decodes_nil
    | cons p parts =>
      have hparts : ∀ q ∈ parts, SpellsUnit q.1 q.2 := fun q hq => h q (List.mem_cons_of_mem p hq)
      have hrest := fun offset => ih parts.length (hlength ▸ Nat.lt_succ_self _) hparts offset rfl
      have hp := h p List.mem_cons_self
      rcases p with ⟨piece, n⟩
      cases hp with
      | plain hc => exact decodes_plain hc hrest
      | short he => exact decodes_short he hrest
      | @escape w n hn =>
        by_cases hlow : LowSurrogate n
        · exact decodes_lone hn hlow
        · by_cases hhigh : HighSurrogate n
          · cases parts with
            | nil => exact decodes_unpaired hn hhigh nofun
            | cons q parts =>
              have hq := hparts q List.mem_cons_self
              rcases q with ⟨piece, m⟩
              by_cases hlow : LowSurrogate m
              · rcases escape_of_surrogate hq (.inr hlow) with ⟨v, rfl, hm⟩
                have hlt : parts.length < length := by
                  rw [← hlength, List.length_cons, List.length_cons]
                  omega
                exact decodes_pair hn hm hhigh hlow fun offset => ih parts.length hlt
                  (fun r hr => hparts r (List.mem_cons_of_mem _ hr)) offset rfl
              · refine decodes_unpaired hn hhigh fun r hr => ?_
                cases hr
                exact ⟨hq, hlow⟩
          · exact decodes_single hn hhigh hlow hrest

end Resolving

/-! ## 4. Tokens -/

theorem getElem?_of_unpaired {k : Nat} (h : ∀ p ∈ parts, SpellsUnit p.1 p.2)
    (hk : Utf16.Unpaired (spelledUnits parts) k) :
    ∃ w n, parts[k]? = some ('\\' :: 'u' :: w, n) ∧ HexUnit w n := by
  have hunit : ∃ n, (spelledUnits parts)[k]? = some n ∧ (HighSurrogate n ∨ LowSurrogate n) := by
    rcases hk with ⟨n, hn, hhigh, -⟩ | ⟨n, hn, hlow, -⟩
    · exact ⟨n, hn, .inl hhigh⟩
    · exact ⟨n, hn, .inr hlow⟩
  rcases hunit with ⟨n, hn, hsurrogate⟩
  rw [spelledUnits, List.getElem?_map, Option.map_eq_some_iff] at hn
  rcases hn with ⟨⟨piece, n⟩, hpart, rfl⟩
  rcases escape_of_surrogate (h _ (List.mem_of_getElem? hpart)) hsurrogate with ⟨w, rfl, hw⟩
  exact ⟨w, n, hpart, hw⟩

theorem spelledText_take_append_drop (parts : List (List Char × Nat)) (k : Nat) :
    spelledText (parts.take k) ++ spelledText (parts.drop k) = spelledText parts := by
  rw [← spelledText_append, List.take_append_drop]

variable {t : Token} {before text sequence : List Char} {k length : Nat}

/-- What is shown of an escape begins with the whole escape. -/
theorem escape_prefix_take (h : ∀ p ∈ parts, SpellsUnit p.1 p.2) (hle : 6 ≤ length)
    (hk : Utf16.Unpaired (spelledUnits parts) k) :
    ∃ w n, parts[k]? = some ('\\' :: 'u' :: w, n) ∧
      '\\' :: 'u' :: w <+: (spelledText (parts.drop k)).take length := by
  rcases getElem?_of_unpaired h hk with ⟨w, n, hpart, hw⟩
  refine ⟨w, n, hpart, List.prefix_take_iff.2 ⟨?_, ?_⟩⟩
  · rcases List.getElem?_eq_some_iff.1 hpart with ⟨hlt, heq⟩
    rw [List.drop_eq_getElem_cons hlt, heq]
    exact List.prefix_append _ _
  · rw [List.length_cons, List.length_cons, (Unescape.length_of_hexUnit hw).1]
    exact hle

/-- The error for a word is that for the first surrogate without a partner, at the byte of the
document at which its escape begins; what the error shows stands there in the document. -/
structure RefusesFirst (before : List Char) (t : Token) (parts : List (List Char × Nat)) (k : Nat)
    (sequence : String) : Prop where
  first : Utf16.FirstUnpaired (spelledUnits parts) k
  escape : ∃ w n, parts[k]? = some ('\\' :: 'u' :: w, n) ∧ '\\' :: 'u' :: w <+: sequence.toList
  error : t.unescape = .error (.invalidEscape sequence
    (Utf8.byteLength (before ++ '"' :: spelledText (parts.take k))))
  shown : ∀ after, (before ++ '"' :: spelledText (parts.take k)) ++ sequence.toList <+:
    before ++ t.content.toList ++ after

theorem unescape_spelling (hcontent : t.content.toList = '"' :: (text ++ ['"']))
    (hparts : Spelling text parts) (hstart : t.span.start = Utf8.byteLength before) :
    (Utf16.WellFormed (spelledUnits parts) ∧
      ∃ s, t.unescape = .ok s ∧ Utf16.encode s.toList = spelledUnits parts) ∨
    ∃ k sequence, RefusesFirst before t parts k sequence := by
  have hresolve : t.unescape
      = (Unescape.resolve (t.span.start + 1) (spelledText parts)).map String.ofList := by
    rw [Token.unescape, hcontent, inner?_quoted, hparts.text_eq]
  rcases decodes hparts.spells (t.span.start + 1) with
    ⟨hformed, s, hs, hencode⟩ | ⟨k, length, hle, hfirst, herror⟩
  · refine .inl ⟨hformed, String.ofList s, ?_, ?_⟩
    · rw [hresolve, hs]
      rfl
    · rw [String.toList_ofList]
      exact hencode
  · refine .inr ⟨k, String.ofList ((spelledText (parts.drop k)).take length), hfirst, ?_, ?_, ?_⟩
    · rw [String.toList_ofList]
      exact escape_prefix_take hparts.spells hle hfirst.1
    · have hplace : t.span.start + 1 + Utf8.byteLength (spelledText (parts.take k))
          = Utf8.byteLength (before ++ '"' :: spelledText (parts.take k)) := by
        rw [Utf8.byteLength_append, Utf8.byteLength_cons, hstart, Nat.add_assoc]
        rfl
      rw [hresolve, herror, hplace]
      rfl
    · intro after
      rw [hcontent, hparts.text_eq, ← spelledText_take_append_drop parts k, String.toList_ofList]
      generalize spelledText (parts.drop k) = rest
      refine ⟨rest.drop length ++ '"' :: after, ?_⟩
      rw [List.append_assoc, ← List.append_assoc (rest.take length), List.take_append_drop]
      simp

/-- Unescaping the token, whose text in the document follows `before`, decodes UTF-16. -/
structure DecodesUtf16 (before : List Char) (t : Token) (text : List Char) : Prop where
  content : t.content.toList = '"' :: (text ++ ['"'])
  spelled : ∃ parts, Spelling text parts
  /-- There is a string if every surrogate has a partner, and only then. -/
  ok_iff : ∀ parts, Spelling text parts →
    ((∃ s, t.unescape = .ok s) ↔ Utf16.WellFormed (spelledUnits parts))
  encode : ∀ parts, Spelling text parts →
    ∀ s, t.unescape = .ok s → Utf16.encode s.toList = spelledUnits parts
  refuses : ∀ parts, Spelling text parts → ¬ Utf16.WellFormed (spelledUnits parts) →
    ∃ k sequence, RefusesFirst before t parts k sequence
  /-- By offsets and a cursor it comes to the same. -/
  agrees : t.unescapeTraced.result.mapError Unescape.Failure.error? = t.unescape.mapError some
  inStep : ∀ m ∈ t.unescapeTraced.moves, m.InStep text
  /-- No other branch finds an error. -/
  surrogate : ∀ failure, t.unescapeTraced.result = .error failure → ∃ error,
    failure = .refused .unpairedHigh error ∨ failure = .refused .noCharacter error

/-- Unescaping a word of the string pattern decodes UTF-16: for units that are UTF-16 it gives the
string with these units, and else the error for the first surrogate without a partner, where its
escape begins in the document.  Offsets and cursor keep in step, and only surrogates are refused. -/
theorem unescape_decodes_utf16 (hmatch : t.content.toList ∈ TokenKind.stringTerm.language)
    (hstart : t.span.start = Utf8.byteLength before) : ∃ text, DecodesUtf16 before t text := by
  rcases mem_language_string.1 hmatch with ⟨text, hcontent, hraw⟩
  refine ⟨text, hcontent, exists_spelling hraw, fun parts hparts => ?_, fun parts hparts s hs => ?_,
    fun parts hparts hformed => ?_, unescapeTraced_agrees t, unescapeTraced_inStep hcontent hraw,
    fun _ => unescapeTraced_surrogate hcontent hraw⟩ <;>
    rcases unescape_spelling hcontent hparts hstart with
      ⟨hformed', s', hs', hencode⟩ | ⟨k, sequence, hrefuses⟩
  · exact ⟨fun _ => hformed', fun _ => ⟨s', hs'⟩⟩
  · constructor
    · rintro ⟨s, hs⟩
      rw [hrefuses.error] at hs
      cases hs
    · exact fun h => absurd hrefuses.first.1 (h k)
  · rw [hs'] at hs
    cases hs
    exact hencode
  · rw [hrefuses.error] at hs
    cases hs
  · exact absurd hformed' hformed
  · exact ⟨k, sequence, hrefuses⟩

/-- A pair of surrogates, and then a high one in front of a character. -/
theorem unescape_decodes_utf16_unpaired :
    let t : Token := ⟨"\"\\ud83d\\ude00\\ud83d!\"", "string", ⟨1, 22⟩⟩
    t.content.toList ∈ TokenKind.stringTerm.language ∧ t.span.start = Utf8.byteLength ['['] ∧
      ∃ text, DecodesUtf16 ['['] t text := by
  intro t
  have hplain : IsPlain '!' := ⟨⟨by decide, by decide⟩, by decide, by decide⟩
  have hraw : RawBody "\\ud83d\\ude00\\ud83d!".toList := by
    refine .unit ?_ ?_ ?_ ?_ (.unit ?_ ?_ ?_ ?_ (.unit ?_ ?_ ?_ ?_ (.plain hplain .nil)))
    all_goals decide
  have hmatch : t.content.toList ∈ TokenKind.stringTerm.language :=
    mem_language_string.2 ⟨"\\ud83d\\ude00\\ud83d!".toList, by decide, hraw⟩
  exact ⟨hmatch, rfl, unescape_decodes_utf16 hmatch rfl⟩

end JsonAutomata
