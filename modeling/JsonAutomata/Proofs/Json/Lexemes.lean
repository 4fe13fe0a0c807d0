import JsonAutomata.Json.Patterns
import JsonAutomata.Proofs.Json.Strings
import JsonAutomata.Proofs.Lexer.Priority

/-!
# Lexemes — what tokens of each kind look like, and where they end

The kinds of tokens differ in their first characters, so at most one pattern can read a text.  A
complete token is as long as possible unless a character follows that its kind could go on with;
only numbers and white space have such characters (`TokenKind.followers`), since nothing can be read
behind the mark that ends a string (`TokenKind.not_consumable_string`).
-/

open Computability

namespace JsonAutomata

open Grammar

namespace TokenKind

variable {kind : TokenKind} {w run rest : List Char} {c : Char}

/-! ## 1. Numbers and white space -/

theorem digits_iff : w ∈ (Term.plus .digits).language ↔ Digits w := by
  rw [Term.digits, Term.mem_language_plus_one]
  simp only [CharClass.digits, CharClass.mem_range]
  rfl

theorem whole_iff : w ∈ integerTerm.language ↔ Whole w := by
  have hnonzero : ∀ c, c ∈ "123456789".toList ↔ c ≠ '0' ∧ IsDigit c := by
    intro c
    constructor
    · have hall : ∀ c ∈ "123456789".toList, c ≠ '0' ∧ '0' ≤ c ∧ c ≤ '9' :=
        forall_mem_of_all (by decide)
      exact hall c
    · have hall : ∀ n < 128, (Char.ofNat n ≠ '0' ∧ '0' ≤ Char.ofNat n ∧ Char.ofNat n ≤ '9') →
          Char.ofNat n ∈ "123456789".toList := by
        decide
      intro h
      exact of_ascii (p := fun c => (c ≠ '0' ∧ IsDigit c) → c ∈ "123456789".toList) hall
        h.2.code_lt h
  simp only [integerTerm, Term.mem_language_choice_cons, Term.mem_language_concat_cons,
    Term.mem_language_concat_nil, Term.mem_language_literal, Term.mem_language_oneOf, Term.digits,
    Term.mem_language_star_one, CharClass.digits, CharClass.mem_range,
    Term.not_mem_language_choice_nil, or_false]
  refine or_congr Iff.rfl ?_
  constructor
  · rintro ⟨_, ⟨c, hc, rfl⟩, _, ⟨ds, hds, _, rfl, rfl⟩, rfl⟩
    obtain ⟨hne, hdigit⟩ := (hnonzero c).1 hc
    refine ⟨c, ds, by simp, hne, by simp, fun d hd => ?_⟩
    rw [List.append_nil, List.singleton_append] at hd
    rcases List.mem_cons.1 hd with rfl | hd
    · exact hdigit
    · exact hds d hd
  · rintro ⟨c, ds, rfl, hne, -, hdigits⟩
    have hc := (hnonzero c).2 ⟨hne, hdigits c List.mem_cons_self⟩
    exact ⟨[c], ⟨c, hc, rfl⟩, _, ⟨ds, fun d hd => hdigits d (List.mem_cons_of_mem c hd), [], rfl,
      rfl⟩, by simp⟩

theorem fraction_iff : w ∈ (Term.optional fractionTerm).language ↔ Fraction w := by
  rw [Term.mem_language_optional, or_comm]
  simp only [fractionTerm, Term.mem_language_concat_cons, Term.mem_language_concat_nil,
    Term.mem_language_literal, digits_iff]
  refine or_congr Iff.rfl ?_
  constructor
  · rintro ⟨_, rfl, _, ⟨ds, hds, _, rfl, rfl⟩, rfl⟩
    exact ⟨ds, by simp, hds⟩
  · rintro ⟨ds, rfl, hds⟩
    exact ⟨_, rfl, _, ⟨ds, hds, [], rfl, rfl⟩, by simp⟩

theorem exponent_iff : w ∈ (Term.optional exponentTerm).language ↔ Exponent w := by
  have hmarks : ∀ c, c ∈ "eE".toList ↔ c = 'e' ∨ c = 'E' := by
    intro c
    show c ∈ ['e', 'E'] ↔ _
    simp
  have hsigns : ∀ c, c ∈ "+-".toList ↔ c = '+' ∨ c = '-' := by
    intro c
    show c ∈ ['+', '-'] ↔ _
    simp
  rw [Term.mem_language_optional, or_comm]
  simp only [exponentTerm, Term.mem_language_concat_cons, Term.mem_language_concat_nil,
    Term.mem_language_optional, Term.mem_language_oneOf, digits_iff, hmarks, hsigns]
  refine or_congr Iff.rfl ?_
  constructor
  · rintro ⟨_, ⟨mark, hmark, rfl⟩, _, ⟨sign, hsign, _, ⟨ds, hds, _, rfl, rfl⟩, rfl⟩, rfl⟩
    refine ⟨mark, sign, ds, by simp, hmark, ?_, hds⟩
    rcases hsign with ⟨c, rfl | rfl, rfl⟩ | rfl
    · exact .inr (.inl rfl)
    · exact .inr (.inr rfl)
    · exact .inl rfl
  · rintro ⟨mark, sign, ds, rfl, hmark, hsign, hds⟩
    refine ⟨[mark], ⟨mark, hmark, rfl⟩, _, ⟨sign, ?_, _, ⟨ds, hds, [], rfl, rfl⟩, rfl⟩, by simp⟩
    rcases hsign with rfl | rfl | rfl
    · exact .inr rfl
    · exact .inl ⟨'+', .inl rfl, rfl⟩
    · exact .inl ⟨'-', .inr rfl, rfl⟩

theorem mem_language_number : w ∈ numberTerm.language ↔ NumberText w := by
  simp only [numberTerm, Term.mem_language_concat_cons, Term.mem_language_concat_nil,
    whole_iff, fraction_iff, exponent_iff]
  simp only [Term.mem_language_optional, Term.mem_language_literal]
  constructor
  · rintro ⟨sign, hsign, _, ⟨whole, hwhole, _, ⟨fraction, hfraction, _, ⟨exponent, hexponent, _, rfl,
      rfl⟩, rfl⟩, rfl⟩, rfl⟩
    exact ⟨sign, whole, fraction, exponent, by simp, hsign.symm, hwhole, hfraction, hexponent⟩
  · rintro ⟨sign, whole, fraction, exponent, rfl, hsign, hwhole, hfraction, hexponent⟩
    exact ⟨sign, hsign.symm, _, ⟨whole, hwhole, _, ⟨fraction, hfraction, _, ⟨exponent, hexponent, [],
      rfl, rfl⟩, rfl⟩, rfl⟩, by simp⟩

theorem isBlank_iff : c ∈ " \t\r\n".toList ↔ IsBlank c := by
  show c ∈ [' ', '\t', '\r', '\n'] ↔ _
  simp [IsBlank]

theorem mem_language_space : w ∈ spaceTerm.language ↔ w ≠ [] ∧ Blank w := by
  rw [spaceTerm, Term.oneOf, Term.mem_language_plus_one]
  simp only [CharClass.mem_ofChars, isBlank_iff]
  rfl

/-! ## 2. First characters -/

def firsts : TokenKind → List Char
  | string => ['"']
  | number => "-0123456789".toList
  | space => " \t\r\n".toList
  | kind => kind.label.toList.take 1

theorem eq_of_mem_firsts {other : TokenKind} (h : c ∈ kind.firsts) (h' : c ∈ other.firsts) :
    kind = other := by
  have hall : ∀ k ∈ all, ∀ l ∈ all, k.firsts.all (fun c => c ∈ l.firsts → k = l) = Bool.true := by
    decide
  exact forall_mem_of_all (hall kind (mem_all kind) other (mem_all other)) c h h'

theorem digit_mem_firsts (h : IsDigit c) : c ∈ number.firsts := by
  have hall : ∀ n < 128, ('0' ≤ Char.ofNat n ∧ Char.ofNat n ≤ '9') →
      Char.ofNat n ∈ number.firsts := by
    decide
  exact of_ascii (p := fun c => IsDigit c → c ∈ number.firsts) hall h.code_lt h

theorem over_integerTerm : integerTerm.Over IsDigit := by
  have hzero : ∀ c ∈ (CharClass.single '0').accepted, IsDigit c := by
    intro c hc
    rw [CharClass.mem_single.1 hc]
    exact ⟨by decide, by decide⟩
  have hnonzero : ∀ c ∈ (CharClass.ofChars "123456789".toList "[1-9]").accepted, IsDigit c := by
    have hall : ∀ c ∈ "123456789".toList, '0' ≤ c ∧ c ≤ '9' :=
      forall_mem_of_all (by decide)
    intro c hc
    exact hall c (CharClass.mem_ofChars.1 hc)
  exact ⟨hzero, hnonzero, fun c hc => CharClass.mem_range.1 hc⟩

theorem mem_firsts_number (h : [c] ∈ numberTerm.consumable) : c ∈ number.firsts := by
  rcases Term.singleton_mem_consumable_concat h with h | ⟨_, h⟩
  · rcases (Language.mem_add _ _ _).1 h with h | h
    · rcases Term.mem_consumable_literal_singleton.1 h with h | h
      · cases h
      · obtain rfl := (List.cons.inj h).1
        decide
    · cases (Language.mem_one _).1 h
  · rcases Term.singleton_mem_consumable_concat h with h | ⟨hnil, _⟩
    · exact digit_mem_firsts (over_integerTerm.consumable_le h c List.mem_cons_self)
    · rcases whole_iff.1 hnil with h | ⟨_, _, h, _⟩ <;> cases h

theorem over_spaceTerm : spaceTerm.Over IsBlank := by
  have hclass : ∀ c ∈ (CharClass.ofChars " \t\r\n".toList "[ \\t\\r\\n]").accepted, IsBlank c :=
    fun c hc => isBlank_iff.1 (CharClass.mem_ofChars.1 hc)
  exact ⟨hclass, hclass⟩

theorem term_of_literal (h : kind ≠ string ∧ kind ≠ number ∧ kind ≠ space) :
    kind.term = .literal kind.label.toList ∧ kind.firsts = kind.label.toList.take 1 := by
  obtain ⟨hstring, hnumber, hspace⟩ := h
  cases kind <;> first | exact ⟨rfl, rfl⟩ | contradiction

/-- Three kinds have patterns of their own, and the tokens of the others are their labels. -/
@[elab_as_elim]
theorem byTerm {motive : TokenKind → Prop} (string : motive string) (number : motive number)
    (space : motive space)
    (literal : ∀ kind, kind ≠ .string ∧ kind ≠ .number ∧ kind ≠ .space → motive kind)
    (kind : TokenKind) : motive kind := by
  cases kind with
  | string => exact string
  | number => exact number
  | space => exact space
  | _ => exact literal _ (by decide)

/-- What a text begins with is a first character of every kind that it can be read into. -/
theorem mem_firsts_of_consumable (h : c :: w ∈ kind.term.consumable) : c ∈ kind.firsts := by
  have hc : [c] ∈ kind.term.consumable := Term.consumable_of_append (v := [c]) h
  cases kind using byTerm with
  | string =>
    rcases Term.singleton_mem_consumable_concat hc with hc | ⟨hnil, _⟩
    · rcases Term.mem_consumable_literal_singleton.1 hc with hc | hc
      · cases hc
      · rw [(List.cons.inj hc).1]
        exact List.mem_cons_self
    · cases Term.mem_language_literal.1 hnil
  | number => exact mem_firsts_number hc
  | space => exact isBlank_iff.2 (over_spaceTerm.consumable_le hc c List.mem_cons_self)
  | literal kind hkind =>
    obtain ⟨hterm, hfirsts⟩ := term_of_literal hkind
    rw [hterm, Term.mem_consumable_literal] at hc
    obtain ⟨v, hv⟩ := hc
    rw [hfirsts, ← hv]
    exact List.mem_cons_self

/-! ## 3. Followers -/

/-- The characters that may go on after a complete token of the kind. -/
def followers : TokenKind → List Char
  | number => "+-.eE0123456789".toList
  | space => " \t\r\n".toList
  | _ => []

def afterQuote : List Char → Option (List Char)
  | [] => none
  | '\\' :: [] => none
  | '\\' :: _ :: rest => afterQuote rest
  | c :: rest => if c = '"' then some rest else afterQuote rest

theorem afterQuote_plain (hc : IsPlain c) : afterQuote (c :: w) = afterQuote w := by
  have hquote : c ≠ '"' := hc.2.1
  have hbackslash : c ≠ '\\' := hc.2.2
  rw [afterQuote.eq_def]
  split
  · rename_i heq
    cases heq
  · rename_i heq
    cases heq
    exact absurd rfl hbackslash
  · rename_i heq
    cases heq
    exact absurd rfl hbackslash
  · rename_i heq
    cases heq
    rw [if_neg hquote]

theorem hex_isPlain (hc : IsHex c) : IsPlain c := by
  have hall : ∀ c ∈ "0123456789abcdefABCDEF".toList,
      (' ' ≤ c ∧ c ≤ '~') ∧ c ≠ '"' ∧ c ≠ '\\' :=
    forall_mem_of_all (by decide)
  exact hall c hc

theorem afterQuote_body {x : List Char} (hx : RawBody x) : afterQuote (x ++ w) = afterQuote w := by
  induction hx with
  | nil => rfl
  | plain hc _ ih => rw [List.cons_append, afterQuote_plain hc, ih]
  | short _ _ ih =>
    simp only [List.cons_append, afterQuote]
    exact ih
  | unit ha hb hc hd _ ih =>
    simp only [List.cons_append, afterQuote]
    rw [afterQuote_plain (hex_isPlain ha), afterQuote_plain (hex_isPlain hb),
      afterQuote_plain (hex_isPlain hc), afterQuote_plain (hex_isPlain hd), ih]

theorem afterQuote_hex (hw : ∀ c ∈ w, IsHex c) : afterQuote w = none := by
  induction w with
  | nil => rfl
  | cons c w ih =>
    rw [afterQuote_plain (hex_isPlain (hw c List.mem_cons_self))]
    exact ih fun d hd => hw d (List.mem_cons_of_mem c hd)

theorem over_hexTerm : (hexTerm.exactly 4).Over IsHex := by
  have hclass : ∀ c ∈ (CharClass.ofChars "0123456789abcdefABCDEF".toList "[0-9a-fA-F]").accepted,
      IsHex c := fun c hc => CharClass.mem_ofChars.1 hc
  exact ⟨hclass, hclass, hclass, hclass⟩

/-- The beginning of one part of a string does not end the string. -/
theorem afterQuote_part (hw : w ∈ partTerm.consumable) : afterQuote w = none := by
  rcases Term.mem_consumable_choice_cons.1 hw with hw | ⟨_, hw⟩
  · rcases Term.mem_consumable_one.1 hw with rfl | ⟨c, hc, rfl⟩
    · rfl
    · rw [afterQuote_plain (mem_unescapedClass.1 hc)]
      rfl
  · obtain hw := (Term.mem_consumable_choice_cons.1 hw).resolve_right fun h => h.1 rfl
    rcases Term.mem_consumable_concat_cons.1 hw with hw | ⟨u, hu, v, hv, rfl⟩
    · rcases Term.mem_consumable_literal_singleton.1 hw with rfl | rfl <;> rfl
    · obtain rfl := Term.mem_language_literal.1 hu
      rw [List.singleton_append]
      -- What follows the backslash is a character of a short escape, or an escape of digits.
      rw [Term.mem_consumable_concat_singleton] at hv
      rcases Term.mem_consumable_choice_cons.1 hv with hv | ⟨_, hv⟩
      · rcases Term.mem_consumable_oneOf.1 hv with rfl | ⟨e, _, rfl⟩
        · rfl
        · rfl
      · obtain hv := (Term.mem_consumable_choice_cons.1 hv).resolve_right fun h => h.1 rfl
        rcases Term.mem_consumable_concat_cons.1 hv with hv | ⟨x, hx, y, hy, rfl⟩
        · rcases Term.mem_consumable_literal_singleton.1 hv with rfl | rfl <;> rfl
        · obtain rfl := Term.mem_language_literal.1 hx
          rw [Term.mem_consumable_concat_singleton] at hy
          have hhex : ∀ c ∈ y, IsHex c := over_hexTerm.consumable_le hy
          rw [← afterQuote_hex hhex, List.singleton_append]
          simp only [afterQuote]

theorem not_consumable_string {x : List Char} (hx : RawBody x) :
    ¬ '"' :: (x ++ ['"']) ++ [c] ∈ stringTerm.consumable := by
  intro h
  have hclosed : afterQuote (x ++ ['"', c]) = some [c] := by
    rw [afterQuote_body hx]
    rfl
  -- What can be read after the opening mark ends the string nowhere, or at its own end.
  have hopen : ∀ y ∈ (Term.concat [.star partTerm, .literal ['"']]).consumable,
      afterQuote y = none ∨ afterQuote y = some [] := by
    intro y hy
    rcases Term.mem_consumable_concat_cons.1 hy with hy | ⟨u, hu, v, hv, rfl⟩
    · obtain ⟨u, hu, v, hv, rfl⟩ := Language.mem_mul.1 hy
      rw [afterQuote_body (mem_language_body.1 hu), afterQuote_part hv]
      exact .inl rfl
    · rw [afterQuote_body (mem_language_body.1 hu)]
      rw [Term.mem_consumable_concat_singleton] at hv
      rcases Term.mem_consumable_literal_singleton.1 hv with rfl | rfl
      · exact .inl rfl
      · exact .inr rfl
  rw [stringTerm_eq] at h
  rcases Term.mem_consumable_concat_cons.1 h with h | ⟨u, hu, y, hy, heq⟩
  · have hle := (Term.mem_consumable_literal.1 h).length_le
    simp at hle
  · obtain rfl := Term.mem_language_literal.1 hu
    have hy' : y = x ++ ['"', c] := by
      simpa using heq
    rcases hopen y hy with hnone | hend
    · rw [hy', hclosed] at hnone
      cases hnone
    · rw [hy', hclosed] at hend
      cases hend

end TokenKind

end JsonAutomata
