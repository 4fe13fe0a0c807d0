import JsonAutomata.Json.Decode
import JsonAutomata.Proofs.Json.Lexemes
import JsonAutomata.Proofs.Lexer.Boundaries

/-!
# Tokens of documents

A text splits into tokens from left to right.  `munch_lexeme` puts one token in front of the tokens
of a rest, as long as the rest does not go on with it.  Decoding is reading the tokens that are no
white space (`decodeWithin_eq_ok_iff`).
-/

namespace JsonAutomata

open Grammar

namespace TokenKind

variable {kind : TokenKind} {w run rest : List Char} {c : Char}

/-! ## 1. Longest runs -/

/-- All characters of numbers are followers of numbers. -/
theorem over_numberTerm : numberTerm.Over (· ∈ number.followers) := by
  have hdigit : ∀ c, IsDigit c → c ∈ number.followers := by
    have hall : ∀ c ∈ number.firsts, c ∈ number.followers :=
      forall_mem_of_all (by decide)
    exact fun c hc => hall c (digit_mem_firsts hc)
  have hclass : ∀ (chars : List Char) (name : String),
      (∀ c ∈ chars, c ∈ number.followers) →
        (Term.oneOf chars name).Over (· ∈ number.followers) :=
    fun chars name hchars c hc => hchars c (CharClass.mem_ofChars.1 hc)
  have hsingle : ∀ d, d ∈ number.followers → (Term.literal [d]).Over (· ∈ number.followers) := by
    intro d hd c hc
    rw [CharClass.mem_single.1 hc]
    exact hd
  have hdigits : (Term.plus .digits).Over (· ∈ number.followers) :=
    ⟨fun c hc => hdigit c (CharClass.mem_range.1 hc), fun c hc => hdigit c (CharClass.mem_range.1 hc)⟩
  have hsign := hsingle '-' (by decide)
  have hpoint := hsingle '.' (by decide)
  have hmarks := hclass "eE".toList "[eE]" (forall_mem_of_all (by decide))
  have hsigns := hclass "+-".toList "[+-]" (forall_mem_of_all (by decide))
  have hwhole : integerTerm.Over (· ∈ number.followers) :=
    ⟨hsingle '0' (by decide),
      hclass "123456789".toList "[1-9]" (forall_mem_of_all (by decide)), hdigits.1⟩
  exact ⟨⟨hsign, trivial⟩, hwhole, ⟨⟨hpoint, hdigits⟩, trivial⟩,
    ⟨hmarks, ⟨hsigns, trivial⟩, hdigits⟩, trivial⟩

/-- A complete token goes on only with a follower of its kind. -/
theorem mem_followers_of_consumable (hrun : run ∈ kind.term.language)
    (h : run ++ [c] ∈ kind.term.consumable) : c ∈ kind.followers := by
  cases kind using byTerm with
  | string =>
    obtain ⟨x, rfl, hx⟩ := mem_language_string.1 hrun
    exact absurd h (not_consumable_string hx)
  | number => exact over_numberTerm.consumable_le h c (by simp)
  | space => exact isBlank_iff.2 (over_spaceTerm.consumable_le h c (by simp))
  | literal kind hkind =>
    obtain ⟨hterm, _⟩ := term_of_literal hkind
    rw [hterm] at hrun h
    obtain rfl := Term.mem_language_literal.1 hrun
    have hle := (Term.mem_consumable_literal.1 h).length_le
    rw [List.length_append, List.length_singleton] at hle
    omega

theorem ne_nil_of_language (hrun : run ∈ kind.term.language) : run ≠ [] := by
  cases kind using byTerm with
  | string =>
    obtain ⟨x, rfl, _⟩ := mem_language_string.1 hrun
    exact List.cons_ne_nil _ _
  | number =>
    obtain ⟨sign, whole, fraction, exponent, rfl, _, hwhole, _⟩ := mem_language_number.1 hrun
    rcases hwhole with rfl | ⟨d, ds, rfl, _⟩ <;> simp
  | space => exact (mem_language_space.1 hrun).1
  | literal kind hkind =>
    obtain ⟨hterm, _⟩ := term_of_literal hkind
    rw [hterm] at hrun
    rw [Term.mem_language_literal.1 hrun]
    have hall : ∀ k ∈ all, k.label.toList ≠ [] := by decide
    exact hall kind (mem_all kind)

theorem language_pattern (kind : TokenKind) : kind.pattern.language = kind.term.language :=
  Term.language_group _ _

theorem consumable_pattern (kind : TokenKind) : kind.pattern.consumable = kind.term.consumable := by
  cases kind <;> rfl

theorem consumable_iff : Consumable jsonPatterns w ↔ ∃ kind : TokenKind, w ∈ kind.term.consumable := by
  constructor
  · rintro ⟨p, hp, hw⟩
    obtain ⟨kind, _, rfl⟩ := List.mem_map.1 hp
    rw [consumable_pattern] at hw
    exact ⟨kind, hw⟩
  · rintro ⟨kind, hw⟩
    rw [← consumable_pattern] at hw
    exact ⟨kind.pattern, List.mem_map_of_mem (mem_all kind), hw⟩

/-- Texts that begin alike can be read into the same kind only. -/
theorem eq_of_consumable {other : TokenKind} (h : c :: w ∈ kind.term.consumable)
    (h' : c :: run ∈ other.term.consumable) : kind = other :=
  eq_of_mem_firsts (mem_firsts_of_consumable h) (mem_firsts_of_consumable h')

/-- What can be read at all can be read from its beginning on. -/
theorem consumable_of_append {v : List Char} (h : Consumable jsonPatterns (v ++ w)) :
    Consumable jsonPatterns v := by
  obtain ⟨kind, hkind⟩ := consumable_iff.1 h
  exact consumable_iff.2 ⟨kind, Term.consumable_of_append hkind⟩

theorem longestRun_of_language (hrun : run ∈ kind.term.language)
    (hrest : ∀ c ∈ rest.head?, ¬ c ∈ kind.followers) :
    LongestRun (Consumable jsonPatterns) run (run ++ rest) := by
  have hconsumable := kind.term.language_le_consumable hrun
  refine (longestRun_append_iff fun _ _ => consumable_of_append).2
    ⟨consumable_iff.2 ⟨kind, hconsumable⟩, fun c hc hnext => ?_⟩
  -- Texts that begin alike are read into one kind, so the character is one of its followers.
  obtain ⟨other, hother⟩ := consumable_iff.1 hnext
  obtain ⟨d, run', rfl⟩ := List.exists_cons_of_ne_nil (ne_nil_of_language hrun)
  obtain rfl : kind = other := eq_of_consumable hconsumable hother
  exact hrest c hc (mem_followers_of_consumable hrun hother)

/-! ## 2. Labels -/

/-- A text has one kind only. -/
theorem unambiguous_jsonPatterns : Unambiguous jsonPatterns := by
  intro p hp q hq l l' w hl hl' hw hw'
  obtain ⟨kind, _, rfl⟩ := List.mem_map.1 hp
  obtain ⟨other, _, rfl⟩ := List.mem_map.1 hq
  rw [language_pattern] at hw hw'
  obtain ⟨d, v, rfl⟩ := List.exists_cons_of_ne_nil (ne_nil_of_language hw)
  have hkind : kind = other := eq_of_consumable (kind.term.language_le_consumable hw)
    (other.term.language_le_consumable hw')
  rw [hkind] at hl
  exact Option.some.inj (hl.symm.trans hl')

/-- The label of a text is that of its kind. -/
theorem earliest_iff {label : Label} :
    Earliest jsonPatterns w label ↔ ∃ kind : TokenKind, label = kind.label ∧
      w ∈ kind.term.language := by
  rw [unambiguous_jsonPatterns.earliest_iff]
  constructor
  · rintro ⟨p, hp, hlabel, hw⟩
    obtain ⟨kind, _, rfl⟩ := List.mem_map.1 hp
    rw [language_pattern] at hw
    exact ⟨kind, (Option.some.inj hlabel).symm, hw⟩
  · rintro ⟨kind, rfl, hw⟩
    rw [← language_pattern] at hw
    exact ⟨kind.pattern, List.mem_map_of_mem (mem_all kind), rfl, hw⟩

end TokenKind

/-! ## 3. Splitting texts into tokens -/

abbrev JsonMunch : Nat → List Char → List Token → Prop :=
  Munch (Consumable jsonPatterns) (Earliest jsonPatterns)

variable {kind : TokenKind} {run rest text : List Char} {offset : Nat} {tokens tail : List Token}

theorem jsonTokens_eq_ok_iff : jsonTokens text = .ok tokens ↔ JsonMunch 0 text tokens :=
  Lexer.tokenize_eq_ok_iff (by decide)

theorem munch_lexeme (hrun : run ∈ kind.term.language)
    (hrest : ∀ c ∈ rest.head?, ¬ c ∈ kind.followers)
    (htail : JsonMunch (offset + Utf8.byteLength run) rest tail) :
    JsonMunch offset (run ++ rest) (Token.ofRun run kind.label offset :: tail) :=
  .token (TokenKind.ne_nil_of_language hrun) (TokenKind.longestRun_of_language hrun hrest)
    (TokenKind.earliest_iff.2 ⟨kind, rfl, hrun⟩) htail

@[simp]
theorem kind?_ofRun (run : List Char) (kind : TokenKind) (offset : Nat) :
    (Token.ofRun run kind.label offset).kind? = some kind := TokenKind.ofLabel?_label kind

/-! ## 4. Tokens that count -/

theorem significant_append (as bs : List Token) :
    Decoder.significant (as ++ bs) = Decoder.significant as ++ Decoder.significant bs :=
  List.filter_append as bs

theorem significant_cons_space {t : Token} (h : t.kind? = some .space) :
    Decoder.significant (t :: tokens) = Decoder.significant tokens := by
  rw [Decoder.significant, List.filter_cons_of_neg (by simp [h])]
  rfl

theorem significant_cons {t : Token} (h : t.kind? ≠ some .space) :
    Decoder.significant (t :: tokens) = t :: Decoder.significant tokens := by
  rw [Decoder.significant, List.filter_cons_of_pos (by simp [h])]
  rfl

/-- A token that counts stands at its offset, behind the tokens in front of it and white space. -/
theorem JsonMunch.exists_place {read unread : List Token} {t : Token} (h : JsonMunch 0 text tokens)
    (hsplit : Decoder.significant tokens = read ++ t :: unread) :
    ∃ (pre run rest : List Char) (kind : TokenKind) (before : List Token),
      text = pre ++ (run ++ rest) ∧
      t = Token.ofRun run kind.label (Utf8.byteLength pre) ∧ run ∈ kind.term.language ∧
      kind ≠ .space ∧ Decoder.significant before = read ∧
      Severed (Consumable jsonPatterns) (Earliest jsonPatterns) 0 pre (run ++ rest) before := by
  obtain ⟨before, after, rfl, rfl, hafter⟩ := List.filter_eq_append_iff.1 hsplit
  obtain ⟨blanks, after, rfl, hblanks, ht, _⟩ := List.filter_eq_cons_iff.1 hafter
  have hread : Decoder.significant (before ++ blanks) = Decoder.significant before := by
    rw [significant_append, Decoder.significant, Decoder.significant,
      List.filter_eq_nil_iff.2 hblanks, List.append_nil]
  rw [← List.append_assoc] at h
  have hunique : ∀ w l l', Earliest jsonPatterns w l → Earliest jsonPatterns w l' → l = l' :=
    fun _ _ _ => Earliest.unique
  obtain ⟨pre, rest, rfl, hsevered, hrest⟩ :=
    h.cut (fun _ _ => TokenKind.consumable_of_append) hunique
  cases hrest with
  | @token _ run rest label _ _ _ hlabel _ =>
    obtain ⟨kind, rfl, hlexeme⟩ := TokenKind.earliest_iff.1 hlabel
    rw [Nat.zero_add] at ht ⊢
    refine ⟨pre, run, rest, kind, before ++ blanks, rfl, rfl, hlexeme, ?_, hread, hsevered⟩
    rintro rfl
    simp at ht

/-! ## 5. Decoding -/

/-- A text is decoded by reading its significant tokens. -/
theorem decodeWithin_eq_of_munch {limit : Option Nat} (h : JsonMunch 0 text tokens) :
    decodeWithin limit text = Reader.read limit (Decoder.significant tokens) := by
  have htokens : (jsonLexer.scan text).result = .ok tokens := jsonTokens_eq_ok_iff.2 h
  unfold Scan.result at htokens
  rw [decodeWithin, Decoder.interpret]
  split at htokens
  · rename_i hnone
    rw [hnone]
    cases htokens
    rfl
  · cases htokens

/-- A text that does not split into tokens fails for that reason. -/
theorem decodeWithin_eq_of_error {limit : Option Nat} {cause : LexError}
    (h : jsonTokens text = .error cause) : decodeWithin limit text = .error (.lex cause) := by
  change (jsonLexer.scan text).result = .error cause at h
  unfold Scan.result at h
  rw [decodeWithin, Decoder.interpret]
  split at h
  · cases h
  · rename_i hfailure
    cases h
    rw [hfailure]

theorem decodeWithin_eq_ok_iff {limit : Option Nat} {v : Value} :
    decodeWithin limit text = .ok v ↔ ∃ tokens, JsonMunch 0 text tokens ∧
      Reader.read limit (Decoder.significant tokens) = .ok v := by
  constructor
  · intro h
    cases hfailure : (jsonLexer.scan text).failure with
    | none =>
      have htokens : jsonTokens text = .ok (jsonLexer.scan text).tokens := by
        rw [jsonTokens, Lexer.tokenize, Scan.result, hfailure]
      have hmunch := jsonTokens_eq_ok_iff.1 htokens
      exact ⟨_, hmunch, (decodeWithin_eq_of_munch hmunch).symm.trans h⟩
    | some e =>
      rw [decodeWithin, Decoder.interpret, hfailure] at h
      cases h
  · rintro ⟨tokens, hmunch, hread⟩
    rw [decodeWithin_eq_of_munch hmunch, hread]

end JsonAutomata
