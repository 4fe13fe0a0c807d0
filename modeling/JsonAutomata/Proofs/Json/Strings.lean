import JsonAutomata.Json.Patterns
import JsonAutomata.Json.Unescape
import JsonAutomata.Proofs.Json.Grammar
import JsonAutomata.Proofs.Pattern.Operators

/-!
# Strings — the pattern, the escapes and the grammar

The string pattern leaves open whether escapes denote characters: it takes any four hexadecimal
digits (`RawBody`).  Resolving the escapes decides the rest.  `stringText_iff` says that both
together are the strings of the grammar.
-/

open Computability

namespace JsonAutomata

namespace Grammar

/-! ## 1. Checks on characters -/

/-- What holds of the characters of a list is checked on the list, not on every character. -/
theorem forall_mem_of_all {p : Char → Prop} [DecidablePred p] {l : List Char}
    (h : l.all (fun c => p c) = true) : ∀ c ∈ l, p c :=
  fun c hc => of_decide_eq_true (List.all_eq_true.1 h c hc)

/-- What holds of the characters of ASCII is checked on their codes. -/
theorem of_ascii {p : Char → Prop} (h : ∀ n < 128, p (Char.ofNat n)) {c : Char}
    (hc : c.toNat < 128) : p c := by
  have hcode := h c.toNat hc
  rwa [Char.ofNat_toNat] at hcode

theorem IsDigit.code_lt {c : Char} (h : IsDigit c) : c.toNat < 128 :=
  Nat.lt_of_le_of_lt (show c.toNat ≤ 57 from h.2) (by decide)

/-! ## 2. Hexadecimal digits -/

theorem HexDigit.lt {c : Char} {n : Nat} (h : HexDigit c n) : n < 16 := by
  rcases h with h | h
  · exact (List.getElem?_eq_some_iff.1 h).1
  · exact (List.getElem?_eq_some_iff.1 h).1

theorem hexValue?_eq_some_iff {c : Char} {n : Nat} : hexValue? c = some n ↔ HexDigit c n := by
  constructor
  · intro h
    -- A digit has one of the codes in three ranges, and each of these is looked up.
    have hcodes : ∀ m < 128, ∀ k ∈ (hexValue? (Char.ofNat m)).toList,
        "0123456789abcdef".toList[k]? = some (Char.ofNat m) ∨
          "0123456789ABCDEF".toList[k]? = some (Char.ofNat m) := by
      decide
    have hle : ∀ a b : Char, a ≤ b ↔ a.toNat ≤ b.toNat := fun a b => Iff.rfl
    have hc : c.toNat < 128 := by
      have h9 : '9'.toNat = 57 := rfl
      have hf : 'f'.toNat = 102 := rfl
      have hF : 'F'.toNat = 70 := rfl
      unfold hexValue? at h
      simp only [hle] at h
      split at h
      · omega
      · split at h
        · omega
        · split at h
          · omega
          · cases h
    refine of_ascii (p := fun c => ∀ k ∈ (hexValue? c).toList, HexDigit c k) hcodes hc n ?_
    rw [h]
    exact List.mem_singleton_self n
  · intro h
    have hlower : ∀ m < 16, "0123456789abcdef".toList[m]?.bind hexValue? = some m := by
      decide
    have hupper : ∀ m < 16, "0123456789ABCDEF".toList[m]?.bind hexValue? = some m := by
      decide
    have hlt := h.lt
    rcases h with h | h
    · rw [← hlower n hlt, h, Option.bind_some]
    · rw [← hupper n hlt, h, Option.bind_some]

theorem hexNumber?_eq_some_iff {a b c d : Char} {n : Nat} :
    hexNumber? [a, b, c, d] = some n ↔ HexUnit [a, b, c, d] n := by
  have hfold : hexNumber? [a, b, c, d] = some n ↔ ∃ i j k l, hexValue? a = some i ∧
      hexValue? b = some j ∧ hexValue? c = some k ∧ hexValue? d = some l ∧
      n = 4096 * i + 256 * j + 16 * k + l := by
    simp only [hexNumber?, List.foldlM_cons, List.foldlM_nil, Option.bind_eq_bind,
      Option.pure_def, Option.bind_eq_some_iff, Option.map_eq_some_iff, Option.some.injEq]
    constructor
    · rintro ⟨_, ⟨i, hi, rfl⟩, _, ⟨j, hj, rfl⟩, _, ⟨k, hk, rfl⟩, _, ⟨l, hl, rfl⟩, rfl⟩
      exact ⟨i, j, k, l, hi, hj, hk, hl, by omega⟩
    · rintro ⟨i, j, k, l, hi, hj, hk, hl, rfl⟩
      exact ⟨_, ⟨i, hi, rfl⟩, _, ⟨j, hj, rfl⟩, _, ⟨k, hk, rfl⟩, _, ⟨l, hl, rfl⟩, by omega⟩
  rw [hfold]
  simp only [hexValue?_eq_some_iff]
  constructor
  · rintro ⟨i, j, k, l, hi, hj, hk, hl, hn⟩
    exact ⟨a, b, c, d, i, j, k, l, rfl, hn, hi, hj, hk, hl⟩
  · rintro ⟨a', b', c', d', i, j, k, l, heq, hn, hi, hj, hk, hl⟩
    cases heq
    exact ⟨i, j, k, l, hi, hj, hk, hl, hn⟩

/-! ## 3. The pattern -/

def IsHex (c : Char) : Prop := c ∈ "0123456789abcdefABCDEF".toList

instance : DecidablePred IsHex := fun _ => inferInstanceAs (Decidable (_ ∈ _))

theorem isHex_iff {c : Char} : IsHex c ↔ ∃ n, HexDigit c n := by
  have hvalue : ∀ c ∈ "0123456789abcdefABCDEF".toList, (hexValue? c).isSome = true :=
    forall_mem_of_all (by decide)
  have hlower : ∀ c ∈ "0123456789abcdef".toList, IsHex c := forall_mem_of_all (by decide)
  have hupper : ∀ c ∈ "0123456789ABCDEF".toList, IsHex c := forall_mem_of_all (by decide)
  constructor
  · intro h
    obtain ⟨n, hn⟩ := Option.isSome_iff_exists.1 (hvalue c h)
    exact ⟨n, hexValue?_eq_some_iff.1 hn⟩
  · rintro ⟨n, hn | hn⟩
    · exact hlower c (List.mem_of_getElem? hn)
    · exact hupper c (List.mem_of_getElem? hn)

theorem HexUnit.exists_hex {w : List Char} {n : Nat} (h : HexUnit w n) :
    ∃ a b c d, w = [a, b, c, d] ∧ IsHex a ∧ IsHex b ∧ IsHex c ∧ IsHex d := by
  obtain ⟨a, b, c, d, i, j, k, l, rfl, -, hi, hj, hk, hl⟩ := h
  exact ⟨a, b, c, d, rfl, isHex_iff.2 ⟨i, hi⟩, isHex_iff.2 ⟨j, hj⟩, isHex_iff.2 ⟨k, hk⟩,
    isHex_iff.2 ⟨l, hl⟩⟩

theorem exists_hexUnit {a b c d : Char} (ha : IsHex a) (hb : IsHex b) (hc : IsHex c)
    (hd : IsHex d) : ∃ n, HexUnit [a, b, c, d] n := by
  obtain ⟨i, hi⟩ := isHex_iff.1 ha
  obtain ⟨j, hj⟩ := isHex_iff.1 hb
  obtain ⟨k, hk⟩ := isHex_iff.1 hc
  obtain ⟨l, hl⟩ := isHex_iff.1 hd
  exact ⟨_, a, b, c, d, i, j, k, l, rfl, rfl, hi, hj, hk, hl⟩

/-- The text between quotation marks, with any four hexadecimal digits in an escape. -/
inductive RawBody : List Char → Prop
  | nil : RawBody []
  | plain {c : Char} {x : List Char} (hc : IsPlain c) (rest : RawBody x) : RawBody (c :: x)
  | short {e : Char} {x : List Char} (he : e ∈ "\"\\/bfnrt".toList) (rest : RawBody x) :
      RawBody ('\\' :: e :: x)
  | unit {a b c d : Char} {x : List Char} (ha : IsHex a) (hb : IsHex b) (hc : IsHex c)
      (hd : IsHex d) (rest : RawBody x) : RawBody ('\\' :: 'u' :: a :: b :: c :: d :: x)

open TokenKind in
theorem mem_unescapedClass {c : Char} : c ∈ unescapedClass.accepted ↔ IsPlain c := by
  have hmarks : c ∈ "\"\\".toList ↔ c = '"' ∨ c = '\\' := by
    show c ∈ ['"', '\\'] ↔ _
    simp
  rw [unescapedClass, CharClass.mem_without, CharClass.mem_range, hmarks, IsPlain, not_or]

def partTerm : Term :=
  .choice [.one TokenKind.unescapedClass, .concat [.literal ['\\'], TokenKind.escapeTerm]]

theorem mem_language_hex4 {w : List Char} :
    w ∈ (TokenKind.hexTerm.exactly 4).language ↔
      ∃ a b c d, IsHex a ∧ IsHex b ∧ IsHex c ∧ IsHex d ∧ w = [a, b, c, d] := by
  show w ∈ (Term.concat [TokenKind.hexTerm, TokenKind.hexTerm, TokenKind.hexTerm,
    TokenKind.hexTerm]).language ↔ _
  simp only [Term.mem_language_concat_cons, Term.mem_language_concat_nil, TokenKind.hexTerm,
    Term.mem_language_oneOf]
  constructor
  · rintro ⟨_, ⟨a, ha, rfl⟩, _, ⟨_, ⟨b, hb, rfl⟩, _, ⟨_, ⟨c, hc, rfl⟩, _, ⟨_, ⟨d, hd, rfl⟩, _, rfl,
      rfl⟩, rfl⟩, rfl⟩, rfl⟩
    exact ⟨a, b, c, d, ha, hb, hc, hd, rfl⟩
  · rintro ⟨a, b, c, d, ha, hb, hc, hd, rfl⟩
    exact ⟨[a], ⟨a, ha, rfl⟩, _, ⟨[b], ⟨b, hb, rfl⟩, _, ⟨[c], ⟨c, hc, rfl⟩, _, ⟨[d], ⟨d, hd, rfl⟩, [],
      rfl, rfl⟩, rfl⟩, rfl⟩, rfl⟩

theorem mem_language_part {w : List Char} :
    w ∈ partTerm.language ↔ (∃ c, IsPlain c ∧ w = [c]) ∨
      (∃ e ∈ "\"\\/bfnrt".toList, w = ['\\', e]) ∨
      ∃ a b c d, IsHex a ∧ IsHex b ∧ IsHex c ∧ IsHex d ∧ w = ['\\', 'u', a, b, c, d] := by
  rw [partTerm, Term.mem_language_choice_cons, Term.mem_language_choice_cons, Term.mem_language_one]
  simp only [mem_unescapedClass, Term.not_mem_language_choice_nil, or_false]
  refine or_congr Iff.rfl ?_
  simp only [Term.mem_language_concat_cons, Term.mem_language_concat_nil, Term.mem_language_literal,
    TokenKind.escapeTerm, Term.mem_language_choice_cons, Term.mem_language_oneOf,
    mem_language_hex4]
  constructor
  · rintro ⟨_, rfl, _, ⟨u, hu, _, rfl, rfl⟩, rfl⟩
    rcases hu with ⟨e, he, rfl⟩ | ⟨_, rfl, _, ⟨_, ⟨a, b, c, d, ha, hb, hc, hd, rfl⟩, _, rfl, rfl⟩,
      rfl⟩ | hu
    · exact .inl ⟨e, he, rfl⟩
    · exact .inr ⟨a, b, c, d, ha, hb, hc, hd, rfl⟩
    · exact absurd hu Term.not_mem_language_choice_nil
  · rintro (⟨e, he, rfl⟩ | ⟨a, b, c, d, ha, hb, hc, hd, rfl⟩)
    · exact ⟨_, rfl, [e], ⟨[e], .inl ⟨e, he, rfl⟩, [], rfl, rfl⟩, rfl⟩
    · exact ⟨_, rfl, ['u', a, b, c, d], ⟨_, .inr (.inl ⟨_, rfl, _, ⟨_, ⟨a, b, c, d, ha, hb, hc, hd,
        rfl⟩, [], rfl, rfl⟩, rfl⟩), [], rfl, rfl⟩, rfl⟩

theorem mem_language_body {x : List Char} : x ∈ (Term.star partTerm).language ↔ RawBody x := by
  have hcons : ∀ u ∈ partTerm.language, ∀ v ∈ (Term.star partTerm).language,
      u ++ v ∈ (Term.star partTerm).language := by
    have hround : partTerm.language * partTerm.language∗ ≤ partTerm.language∗ := mul_kstar_le_kstar
    exact fun u hu v hv => hround (Language.append_mem_mul hu hv)
  constructor
  · rintro ⟨parts, rfl, hparts⟩
    induction parts with
    | nil => exact .nil
    | cons u parts ih =>
      have hrest := ih fun y hy => hparts y (List.mem_cons_of_mem u hy)
      rw [List.flatten_cons]
      rcases mem_language_part.1 (hparts u List.mem_cons_self) with
        ⟨c, hc, rfl⟩ | ⟨e, he, rfl⟩ | ⟨a, b, c, d, ha, hb, hc, hd, rfl⟩
      · exact .plain hc hrest
      · exact .short he hrest
      · exact .unit ha hb hc hd hrest
  · intro h
    induction h with
    | nil => exact Language.nil_mem_kstar _
    | @plain c x hc _ ih => exact hcons [c] (mem_language_part.2 (.inl ⟨c, hc, rfl⟩)) x ih
    | @short e x he _ ih =>
      exact hcons ['\\', e] (mem_language_part.2 (.inr (.inl ⟨e, he, rfl⟩))) x ih
    | @unit a b c d x ha hb hc hd _ ih =>
      exact hcons ['\\', 'u', a, b, c, d]
        (mem_language_part.2 (.inr (.inr ⟨a, b, c, d, ha, hb, hc, hd, rfl⟩))) x ih

theorem stringTerm_eq :
    TokenKind.stringTerm = .concat [.literal ['"'], .star partTerm, .literal ['"']] := rfl

theorem mem_language_string {w : List Char} :
    w ∈ TokenKind.stringTerm.language ↔ ∃ x, w = '"' :: (x ++ ['"']) ∧ RawBody x := by
  simp only [stringTerm_eq, Term.mem_language_concat_cons, Term.mem_language_concat_nil,
    Term.mem_language_literal, mem_language_body]
  constructor
  · rintro ⟨_, rfl, _, ⟨x, hx, _, ⟨_, rfl, _, rfl, rfl⟩, rfl⟩, rfl⟩
    exact ⟨x, rfl, hx⟩
  · rintro ⟨x, rfl, hx⟩
    exact ⟨_, rfl, _, ⟨x, hx, _, ⟨_, rfl, [], rfl, rfl⟩, rfl⟩, rfl⟩

/-! ## 4. Resolving escapes -/

section Resolve

open Unescape

variable {x s : List Char} {offset : Nat}

theorem resolve_cons_of_ne {c : Char} (hc : c ≠ '\\') :
    resolve offset (c :: x) = (resolve (offset + c.utf8Size) x).map (c :: ·) := by
  rw [resolve.eq_def]
  exact if_pos hc

theorem short?_of_mem {e c : Char} (h : (e, c) ∈ shortEscapes) : short? e = some c := by
  have hall : ∀ p ∈ shortEscapes, short? p.1 = some p.2 := by decide
  exact hall (e, c) h

theorem mem_of_short? {e c : Char} (h : short? e = some c) : (e, c) ∈ shortEscapes := by
  unfold short? at h
  split at h <;> first | (cases h; decide) | cases h

theorem isHigh_iff {n : Nat} : Utf16.isHigh n = true ↔ HighSurrogate n := by
  simp [Utf16.isHigh, HighSurrogate]

theorem isLow_iff {n : Nat} : Utf16.isLow n = true ↔ LowSurrogate n := by
  simp [Utf16.isLow, LowSurrogate]

theorem combine_eq (m n : Nat) :
    Utf16.combine m n = 0x10000 + 0x400 * (m - 0xD800) + (n - 0xDC00) := by
  unfold Utf16.combine
  omega

theorem resolve_short {e c : Char} (he : (e, c) ∈ shortEscapes) :
    resolve offset ('\\' :: e :: x) = (resolve (offset + 2) x).map (c :: ·) := by
  have hshort := short?_of_mem he
  have hne : e ≠ 'u' := by
    rintro rfl
    cases hshort
  rw [resolve.eq_def]
  simp only [ne_eq, not_true_eq_false, if_false]
  split
  · rename_i heq
    cases heq
    exact absurd rfl hne
  · rename_i heq
    cases heq
    exact absurd rfl hne
  · rename_i heq
    cases heq
    rw [hshort]
  · rename_i heq
    cases heq

theorem resolve_unit {a b c d : Char} {n : Nat} (hn : HexUnit [a, b, c, d] n)
    (hhigh : ¬ HighSurrogate n) (hlow : ¬ LowSurrogate n) :
    resolve offset ('\\' :: 'u' :: a :: b :: c :: d :: x)
      = (resolve (offset + 6) x).map (Char.ofNat n :: ·) := by
  rw [← isHigh_iff, Bool.not_eq_true] at hhigh
  rw [← isLow_iff, Bool.not_eq_true] at hlow
  rw [resolve.eq_def]
  simp only [ne_eq, not_true_eq_false, if_false, hexNumber?_eq_some_iff.2 hn, hhigh, hlow,
    Bool.false_eq_true]
  rfl

theorem resolve_pair {a b c d i j k l : Char} {m n : Nat} (hm : HexUnit [a, b, c, d] m)
    (hn : HexUnit [i, j, k, l] n) (hhigh : HighSurrogate m) (hlow : LowSurrogate n) :
    resolve offset ('\\' :: 'u' :: a :: b :: c :: d :: '\\' :: 'u' :: i :: j :: k :: l :: x)
      = (resolve (offset + 12) x).map
        (Char.ofNat (0x10000 + 0x400 * (m - 0xD800) + (n - 0xDC00)) :: ·) := by
  rw [resolve.eq_def]
  simp only [ne_eq, not_true_eq_false, if_false, if_true, hexNumber?_eq_some_iff.2 hm,
    hexNumber?_eq_some_iff.2 hn, isHigh_iff.2 hhigh, isLow_iff.2 hlow, Option.filter_some, andThen,
    combine_eq]

/-- A body of the grammar resolves to what it stands for, wherever it begins. -/
theorem StringBody.resolve_eq (h : StringBody x s) (offset : Nat) : resolve offset x = .ok s := by
  induction h generalizing offset with
  | nil => rfl
  | plain hc _ ih =>
    rw [resolve_cons_of_ne hc.2.2, ih]
    rfl
  | short he _ ih =>
    rw [resolve_short he, ih]
    rfl
  | unit hn hhigh hlow _ ih =>
    obtain ⟨a, b, c, d, rfl, -⟩ := hn.exists_hex
    simp only [List.cons_append, List.nil_append]
    rw [resolve_unit hn hhigh hlow, ih]
    rfl
  | pair hm hn hhigh hlow _ ih =>
    obtain ⟨a, b, c, d, rfl, -⟩ := hm.exists_hex
    obtain ⟨i, j, k, l, rfl, -⟩ := hn.exists_hex
    simp only [List.cons_append, List.nil_append]
    rw [resolve_pair hm hn hhigh hlow, ih]
    rfl

theorem map_eq_ok_iff {ε α β : Type} {f : α → β} {e : Except ε α} {b : β} :
    e.map f = .ok b ↔ ∃ a, e = .ok a ∧ f a = b := by
  cases e with
  | error e => simp [Except.map]
  | ok a => simp [Except.map]

theorem map_eq_error_iff {ε α β : Type} {f : α → β} {e : Except ε α} {x : ε} :
    e.map f = .error x ↔ e = .error x := by
  cases e with
  | error e => simp [Except.map]
  | ok a => simp [Except.map]

theorem RawBody.of_plain {c : Char} (h : RawBody (c :: x)) (hc : c ≠ '\\') :
    IsPlain c ∧ RawBody x := by
  cases h with
  | plain hplain rest => exact ⟨hplain, rest⟩
  | short => exact absurd rfl hc
  | unit => exact absurd rfl hc

theorem not_isPlain_backslash : ¬ IsPlain '\\' := fun h => h.2.2 rfl

theorem RawBody.of_short {e : Char} (h : RawBody ('\\' :: e :: x)) (he : e ≠ 'u') :
    RawBody x := by
  cases h with
  | plain hplain => exact absurd hplain not_isPlain_backslash
  | short _ rest => exact rest
  | unit => exact absurd rfl he

theorem RawBody.of_unit {a b c d : Char} (h : RawBody ('\\' :: 'u' :: a :: b :: c :: d :: x)) :
    RawBody x := by
  cases h with
  | plain hplain => exact absurd hplain not_isPlain_backslash
  | short he => exact absurd he (by decide)
  | unit _ _ _ _ rest => exact rest

/-- What resolves is a body of the grammar, if it matches the pattern. -/
theorem StringBody.of_resolve (hx : RawBody x) (h : resolve offset x = .ok s) :
    StringBody x s := by
  -- A pair of surrogates, one unit and a short escape; the pattern rules out other characters.
  fun_induction resolve offset x generalizing s with
  | case1 =>
    cases h
    exact .nil
  | case2 offset c rest hc ih =>
    obtain ⟨s, hs, rfl⟩ := map_eq_ok_iff.1 h
    have ⟨hplain, hrest⟩ := hx.of_plain hc
    exact .plain hplain (ih hrest hs)
  | case5 offset c hc h1 h2 h3 h4 high hhigh hishigh l1 l2 l3 l4 after low hlow ih =>
    obtain rfl := not_not.1 hc
    obtain ⟨s, hs, rfl⟩ := map_eq_ok_iff.1 h
    obtain ⟨hnumber, hislow⟩ := Option.filter_eq_some_iff.1 hlow
    have hhigh := hexNumber?_eq_some_iff.1 hhigh
    have hlow := hexNumber?_eq_some_iff.1 hnumber
    have hrest := ih hx.of_unit.of_unit hs
    rw [combine_eq]
    exact StringBody.pair hhigh hlow (isHigh_iff.1 hishigh) (isLow_iff.1 hislow) hrest
  | case8 offset c hc h1 h2 h3 h4 after n hnumber hnothigh hnotlow ih =>
    obtain rfl := not_not.1 hc
    obtain ⟨s, hs, rfl⟩ := map_eq_ok_iff.1 h
    rw [isHigh_iff] at hnothigh
    rw [isLow_iff] at hnotlow
    exact StringBody.unit (hexNumber?_eq_some_iff.1 hnumber) hnothigh hnotlow (ih hx.of_unit hs)
  | case11 offset c hc e after _ he d hshort ih =>
    obtain rfl := not_not.1 hc
    obtain ⟨s, hs, rfl⟩ := map_eq_ok_iff.1 h
    exact .short (mem_of_short? hshort) (ih (hx.of_short he) hs)
  -- All other cases are errors.
  | case3 => cases h
  | case4 => cases h
  | case6 => cases h
  | case7 => cases h
  | case9 => cases h
  | case10 => cases h
  | case12 => cases h

theorem StringBody.raw (h : StringBody x s) : RawBody x := by
  induction h with
  | nil => exact .nil
  | plain hc _ ih => exact .plain hc ih
  | @short e c _ _ he _ ih =>
    have hall : ∀ p ∈ shortEscapes, p.1 ∈ "\"\\/bfnrt".toList := by decide
    exact .short (hall (e, c) he) ih
  | unit hn _ _ _ ih =>
    obtain ⟨a, b, c, d, rfl, ha, hb, hc, hd⟩ := hn.exists_hex
    exact .unit ha hb hc hd ih
  | pair hm hn _ _ _ ih =>
    obtain ⟨a, b, c, d, rfl, ha, hb, hc, hd⟩ := hm.exists_hex
    obtain ⟨i, j, k, l, rfl, hi, hj, hk, hl⟩ := hn.exists_hex
    exact .unit ha hb hc hd (.unit hi hj hk hl ih)

/-- Where escapes do not resolve, one of them is reported. -/
theorem resolve_eq_error {e : DecodeError} (h : resolve offset x = .error e) :
    ∃ sequence place, e = .invalidEscape sequence place := by
  fun_induction resolve offset x with
  | case1 => cases h
  -- A character or an escape that resolves: the error is one of the rest.
  | case2 _ _ _ _ ih => exact ih (map_eq_error_iff.1 h)
  | case5 _ _ _ _ _ _ _ _ _ _ _ _ _ _ _ _ _ ih => exact ih (map_eq_error_iff.1 h)
  | case8 _ _ _ _ _ _ _ _ _ _ _ _ ih => exact ih (map_eq_error_iff.1 h)
  | case11 _ _ _ _ _ _ _ _ _ ih => exact ih (map_eq_error_iff.1 h)
  | _ =>
    cases h
    exact ⟨_, _, rfl⟩

theorem inner?_quoted (x : List Char) : inner? ('"' :: (x ++ ['"'])) = some x := by
  simp [inner?]

/-- A token that matches the pattern is wrong only by one of its escapes. -/
theorem unescape_eq_error {t : Token} {e : DecodeError}
    (hmatch : t.content.toList ∈ TokenKind.stringTerm.language) (h : t.unescape = .error e) :
    ∃ sequence place, e = .invalidEscape sequence place := by
  obtain ⟨x, hx, _⟩ := mem_language_string.1 hmatch
  rw [Token.unescape, hx, inner?_quoted] at h
  exact resolve_eq_error (map_eq_error_iff.1 h)

/-- A token is a string of the grammar if it matches the pattern and its escapes resolve. -/
theorem stringText_iff {t : Token} {s : String} :
    StringText t.content.toList s ↔
      t.content.toList ∈ TokenKind.stringTerm.language ∧ t.unescape = .ok s := by
  rw [mem_language_string]
  constructor
  · rintro ⟨x, cs, hw, hbody, rfl⟩
    refine ⟨⟨x, hw, hbody.raw⟩, ?_⟩
    rw [Token.unescape, hw, inner?_quoted]
    exact congrArg (Except.map String.ofList) (hbody.resolve_eq _)
  · rintro ⟨⟨x, hw, hraw⟩, hs⟩
    rw [Token.unescape, hw, inner?_quoted] at hs
    obtain ⟨cs, hcs, rfl⟩ := map_eq_ok_iff.1 hs
    exact ⟨x, cs, hw, .of_resolve hraw hcs, rfl⟩

end Resolve

end Grammar

end JsonAutomata
