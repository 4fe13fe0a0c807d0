import JsonAutomata.Proofs.Json.Admitting
import JsonAutomata.Proofs.Json.Decoding

/-!
# Viable prefixes — errors at the earliest token

Whatever a reader has accepted can be completed to a document (`Reader.Consumed.viable`).  A
token is refused for its kind, and how a token begins decides its kind.  So an error is reported at
the first token behind which no text makes a document (`decode_error_earliest`).
-/

namespace JsonAutomata

open Grammar

variable {L : Nat} {limit : Option Nat} {e : DecodeError} {w text pre run rest : List Char}
  {v : Value} {tokens before : List Token} {t : Token} {kind : TokenKind}

/-! ## 1. Completing what was read -/

/-- Some text that is not empty completes what was read to a document. -/
def Viable (L : Nat) (w : List Char) : Prop :=
  ∃ y v, y ≠ [] ∧ Derives L (.element v) (w ++ y)

theorem Viable.of_append {u : List Char} (hne : u ≠ [])
    (h : ∃ y v, Derives L (.element v) (w ++ u ++ y)) : Viable L w := by
  obtain ⟨y, v, hy⟩ := h
  rw [List.append_assoc] at hy
  refine ⟨u ++ y, v, fun hnil => hne (List.append_eq_nil_iff.1 hnil).1, hy⟩

theorem Viable.exists_rest (h : Viable L w) : ∃ y v, Derives L (.element v) (w ++ y) := by
  obtain ⟨y, v, _, hy⟩ := h
  exact ⟨y, v, hy⟩

namespace Reader

variable {reader middle next : Reader} {frames : List Frame}

/-- All open containers can be closed behind a complete value. -/
theorem Consumed.exists_closing (h : Consumed L (Reader.complete v frames) w) :
    ∃ y v', Derives L (.element v') (w ++ y) := by
  -- Closing the innermost container completes a value of the one around it.
  induction frames generalizing v w with
  | nil =>
    cases h with
    | done h =>
      refine ⟨[], v, ?_⟩
      rwa [List.append_nil]
  | cons frame outer ih =>
    cases frame with
    | array items =>
      obtain ⟨y, v', hy⟩ := ih (Consumed.closeArray h)
      rw [List.append_assoc] at hy
      exact ⟨_, v', hy⟩
    | object members key =>
      obtain ⟨y, v', hy⟩ := ih (Consumed.closeObject h)
      rw [List.append_assoc] at hy
      exact ⟨_, v', hy⟩

/-- Where a value may come next, a literal may. -/
theorem Consumed.viable_value (h : Consumed L (.value frames) w) : Viable L w := by
  -- A literal opens nothing, so the limit cannot be in its way.
  have hn : L - frames.length + frames.length = L := Nat.sub_add_cancel h.depth_le
  have hnull := h.complete (.null (n := L - frames.length)) hn
  exact Viable.of_append (u := "null".toList) (by decide) hnull.exists_closing

theorem Consumed.viable_colon {members : List (String × Value)} {key : String}
    (h : Consumed L (.colon members key frames) w) : Viable L w :=
  Viable.of_append (List.cons_ne_nil ':' []) (h.member blank_nil).viable_value.exists_rest

/-- Unless the document is complete, something may come next. -/
theorem Consumed.viable (h : Consumed L reader w) (hreader : ∀ v, reader ≠ .done v) :
    Viable L w := by
  have hempty : StringText ['"', '"'] (String.ofList []) := ⟨[], [], rfl, .nil, rfl⟩
  cases reader with
  | value frames => exact h.viable_value
  | firstItem outer =>
    exact Viable.of_append (List.cons_ne_nil ']' []) h.closeEmptyArray.exists_closing
  | firstKey outer =>
    exact Viable.of_append (List.cons_ne_nil '\x7d' []) h.closeEmptyObject.exists_closing
  | nextKey members outer =>
    exact Viable.of_append (by decide) (Consumed.nextKey h hempty blank_nil).viable_colon.exists_rest
  | colon members key outer => exact h.viable_colon
  | afterItem items outer =>
    exact Viable.of_append (List.cons_ne_nil ']' []) h.closeArray.exists_closing
  | afterMember members outer =>
    exact Viable.of_append (List.cons_ne_nil '\x7d' []) h.closeObject.exists_closing
  | done v => exact absurd rfl (hreader v)

/-! ## 2. Where a reader stops -/

/-- A reader that fails does so at a token, after it has accepted those before. -/
theorem run_eq_error (h : reader.run limit tokens = .error e) :
    ∃ before t after middle, tokens = before ++ t :: after ∧
      reader.run limit before = .ok middle ∧ middle.step limit t = .error e := by
  induction tokens generalizing reader with
  | nil => cases h
  | cons t tokens ih =>
    rw [run] at h
    cases hstep : reader.step limit t with
    | error e' =>
      rw [hstep] at h
      cases h
      exact ⟨[], t, tokens, reader, rfl, rfl, hstep⟩
    | ok next =>
      rw [hstep] at h
      obtain ⟨before, u, after, middle, rfl, hbefore, hu⟩ := ih h
      exact ⟨t :: before, u, after, middle, rfl, run_cons_eq_ok_iff.2 ⟨next, hstep, hbefore⟩, hu⟩

/-- An error at a token: its kind is not admitted, an escape is wrong, or there are too many open
containers. -/
theorem step_error_cases {offset : Nat} (hrun : run ∈ kind.term.language)
    (h : reader.step limit (Token.ofRun run kind.label offset) = .error e) :
    (reader.admits kind = false ∧ e = reader.refusal (Token.ofRun run kind.label offset)) ∨
      (∃ sequence place, e = .invalidEscape sequence place) ∨ e = .depthLimit offset := by
  have hkind := kind?_ofRun run kind offset
  cases hadmits : reader.admits kind with
  | false =>
    rw [← hkind] at hadmits
    rw [step_of_not_admits hadmits] at h
    cases h
    exact .inl ⟨rfl, rfl⟩
  | true =>
    rw [← hkind] at hadmits
    rw [step_of_admits hadmits] at h
    split at h
    · cases h
      exact .inr (.inr rfl)
    · rcases reads_step hadmits with ⟨next, hok, _⟩ | ⟨e', hstring, hescape, herror⟩
      · cases hok.symm.trans h
      · cases herror.symm.trans h
        cases hkind.symm.trans hstring
        refine .inr (.inl (unescape_eq_error ?_ hescape))
        rwa [Token.ofRun, String.toList_ofList]

end Reader

/-! ## 3. Errors of texts -/

/-- The kind of a text is that of its first character. -/
theorem JsonMunch.exists_cons {offset : Nat} {z : List Char} (hrun : run ∈ kind.term.language)
    (h : JsonMunch offset (run ++ z) tokens) :
    ∃ run' tail, tokens = Token.ofRun run' kind.label offset :: tail := by
  obtain ⟨c, run, rfl⟩ := List.exists_cons_of_ne_nil (TokenKind.ne_nil_of_language hrun)
  generalize htext : c :: run ++ z = text at h
  cases h with
  | done => cases htext
  | @token _ run' rest label tail hne hlongest hlabel htail =>
    obtain ⟨other, rfl, hother⟩ := TokenKind.earliest_iff.1 hlabel
    obtain ⟨d, run', rfl⟩ := List.exists_cons_of_ne_nil hne
    injection htext with hc _
    obtain rfl := hc
    -- Both runs are consumable for their kinds and begin with the same character.
    obtain rfl : kind = other := TokenKind.eq_of_consumable
      (kind.term.language_le_consumable hrun) (other.term.language_le_consumable hother)
    exact ⟨_, tail, rfl⟩

/-- Reading stops with an error at the run of a token behind `pre`. -/
structure Stops (L : Nat) (e : DecodeError) (pre run rest : List Char) (kind : TokenKind)
    (before : List Token) (middle : Reader) : Prop where
  severed : Severed (Consumable jsonPatterns) (Earliest jsonPatterns) 0 pre (run ++ rest) before
  accepted : Reader.start.run (some L) (Decoder.significant before) = .ok middle
  lexeme : run ∈ kind.term.language
  significant : kind ≠ .space
  refused : middle.step (some L) (Token.ofRun run kind.label (Utf8.byteLength pre)) = .error e

theorem exists_stops (hmunch : JsonMunch 0 text tokens)
    (h : Reader.start.run (some L) (Decoder.significant tokens) = .error e) :
    ∃ pre run rest kind before middle, text = pre ++ (run ++ rest) ∧
      Stops L e pre run rest kind before middle := by
  obtain ⟨read, t, unread, middle, hsplit, haccepted, hrefused⟩ := Reader.run_eq_error h
  obtain ⟨pre, run, rest, kind, before, rfl, rfl, hlexeme, hkind, rfl, hsevered⟩ :=
    JsonMunch.exists_place hmunch hsplit
  exact ⟨pre, run, rest, kind, before, middle, rfl, hsevered, haccepted, hlexeme, hkind, hrefused⟩

namespace Stops

variable {middle : Reader}

/-- The text in front of the token was read. -/
theorem consumed (h : Stops L e pre run rest kind before middle) : Reader.Consumed L middle pre :=
  (Reader.Consumed.start blank_nil).run_tokens h.severed.munch h.accepted

/-- The text in front of the token is a document if nothing may come next. -/
theorem decode_of_done (h : Stops L e pre run rest kind before (.done v)) :
    decodeWithin (some L) pre = .ok v := by
  cases h.consumed with
  | done hderives => exact decodeWithin_eq_ok_iff_derives.2 hderives

/-- What is refused for its kind is refused whatever it goes on with. -/
theorem not_decode (h : Stops L e pre run rest kind before middle)
    (hadmits : middle.admits kind = false) (z : List Char) :
    decodeWithin (some L) (pre ++ (run ++ z)) ≠ .ok v := by
  intro hok
  obtain ⟨tokens, hmunch, hread⟩ := decodeWithin_eq_ok_iff.1 hok
  have hhead : ∀ c ∈ (run ++ z).head?, c ∈ (run ++ rest).head? := by
    obtain ⟨c, run', hrun⟩ := List.exists_cons_of_ne_nil (TokenKind.ne_nil_of_language h.lexeme)
    rw [hrun]
    exact fun d hd => hd
  -- The tokens in front of the run are the same, and so is the kind of the next one.
  obtain ⟨tail, htail, rfl⟩ := (h.severed _ hhead tokens).1 hmunch
  obtain ⟨run', tail, rfl⟩ := JsonMunch.exists_cons h.lexeme htail
  rw [significant_append, significant_ofRun kind h.significant, Reader.read_eq_ok_iff,
    run_append h.accepted] at hread
  obtain ⟨next, hnext, _⟩ := Reader.run_cons_eq_ok_iff.1 hread
  rw [Reader.step_of_not_admits (by rwa [kind?_ofRun])] at hnext
  cases hnext

end Stops

/-- What an error says about the text that it is reported for. -/
inductive Reported (L : Nat) (text : List Char) : DecodeError → Prop
  | lex {cause : LexError} (h : jsonTokens text = .error cause) : Reported L text (.lex cause)
  | unexpectedToken {pre run rest : List Char} {expected : Expectation}
      (htext : text = pre ++ (run ++ rest)) (hviable : Viable L pre)
      (hdead : ∀ z v, decodeWithin (some L) (pre ++ (run ++ z)) ≠ .ok v) :
      Reported L text (.unexpectedToken (String.ofList run) expected (Utf8.byteLength pre))
  | trailingTokens {pre rest : List Char} {v : Value} (htext : text = pre ++ rest)
      (hdone : decodeWithin (some L) pre = .ok v) :
      Reported L text (.trailingTokens (Utf8.byteLength pre))
  | invalidEscape {sequence : String} {offset : Nat} :
      Reported L text (.invalidEscape sequence offset)
  | depthLimit {offset : Nat} : Reported L text (.depthLimit offset)
  | unexpectedEnd {expected : Expectation} (hviable : Viable L text) :
      Reported L text (.unexpectedEnd expected)

theorem Stops.reported {middle : Reader} (h : Stops L e pre run rest kind before middle) :
    Reported L (pre ++ (run ++ rest)) e := by
  rcases Reader.step_error_cases h.lexeme h.refused with ⟨hadmits, rfl⟩ | ⟨_, _, rfl⟩ | rfl
  · rw [Reader.refusal]
    cases hexpected : middle.expected? with
    | some expected =>
      have hnot : ∀ v, middle ≠ .done v := by
        rintro v rfl
        cases hexpected
      exact .unexpectedToken rfl (h.consumed.viable hnot) fun z v => h.not_decode hadmits z
    | none =>
      cases middle with
      | done v => exact .trailingTokens rfl h.decode_of_done
      | _ => cases hexpected
  · exact .invalidEscape
  · exact .depthLimit

theorem reported_finish {reader : Reader} (hconsumed : Reader.Consumed L reader text)
    (h : reader.finish = .error e) : Reported L text e := by
  cases reader with
  | done v => cases h
  | _ =>
    cases h
    exact .unexpectedEnd (hconsumed.viable nofun)

theorem reported_of_error (h : decodeWithin (some L) text = .error e) : Reported L text e := by
  cases htokens : jsonTokens text with
  | error cause =>
    rw [decodeWithin_eq_of_error htokens] at h
    cases h
    exact .lex htokens
  | ok tokens =>
    have hmunch := jsonTokens_eq_ok_iff.1 htokens
    rw [decodeWithin_eq_of_munch hmunch, Reader.read] at h
    cases hrun : Reader.start.run (some L) (Decoder.significant tokens) with
    | error e' =>
      rw [hrun] at h
      cases h
      obtain ⟨pre, run, rest, kind, before, middle, rfl, hstops⟩ := exists_stops hmunch hrun
      exact hstops.reported
    | ok reader =>
      rw [hrun] at h
      exact reported_finish ((Reader.Consumed.start blank_nil).run_tokens hmunch hrun) h

/-! ## 4. The main result -/

/-- Errors are reported at the earliest token.  A text that does not split into tokens fails for that
reason alone.  An unexpected token stands at its offset: what is in front of it can be completed to a
document, but not with the token.  In front of trailing tokens there is a document, and a text that
ends unexpectedly can be completed. -/
theorem decode_error_earliest (text : List Char) :
    (∀ cause, decode text = .error (.lex cause) ↔ jsonTokens text = .error cause) ∧
    (∀ found expected offset, decode text = .error (.unexpectedToken found expected offset) →
      ∃ pre rest, text = pre ++ (found.toList ++ rest) ∧ Utf8.byteLength pre = offset ∧
        (∃ y v, decode (pre ++ y) = .ok v) ∧
        ∀ z v, decode (pre ++ (found.toList ++ z)) ≠ .ok v) ∧
    (∀ offset, decode text = .error (.trailingTokens offset) →
      ∃ pre rest v, text = pre ++ rest ∧ Utf8.byteLength pre = offset ∧ decode pre = .ok v) ∧
    ∀ expected, decode text = .error (.unexpectedEnd expected) →
      ∃ y v, y ≠ [] ∧ decode (text ++ y) = .ok v := by
  refine ⟨fun cause => ⟨fun h => ?_, decodeWithin_eq_of_error⟩, fun found expected offset h => ?_,
    fun offset h => ?_, fun expected h => ?_⟩
  · cases reported_of_error h with
    | lex hcause => exact hcause
  · cases reported_of_error h with
    | @unexpectedToken pre run rest _ htext hviable hdead =>
      rw [String.toList_ofList]
      obtain ⟨y, v, hy⟩ := hviable.exists_rest
      exact ⟨pre, rest, htext, rfl, ⟨y, v, decodeWithin_eq_ok_iff_derives.2 hy⟩, hdead⟩
  · cases reported_of_error h with
    | @trailingTokens pre rest v htext hdone => exact ⟨pre, rest, v, htext, rfl, hdone⟩
  · cases reported_of_error h with
    | unexpectedEnd hviable =>
      obtain ⟨y, v, hne, hy⟩ := hviable
      exact ⟨y, v, hne, decodeWithin_eq_ok_iff_derives.2 hy⟩

end JsonAutomata
