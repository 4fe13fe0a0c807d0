import JsonAutomata.Proofs.Json.Accepting
import JsonAutomata.Proofs.Lexer.History

/-!
# Decoding — exactly the grammar

A text decodes to a value if and only if it is an element of the grammar that denotes the value,
with no more open containers than the limit (`decodeWithin_eq_ok_iff_derives`).  A decoder may be
used for one document after another: what it has read before plays no part.
-/

namespace JsonAutomata

open Grammar

variable {text : List Char} {v : Value}

theorem decodeWithin_eq_ok_iff_derives {L : Nat} :
    decodeWithin (some L) text = .ok v ↔ Derives L (.element v) text := by
  rw [decodeWithin_eq_ok_iff]
  constructor
  · rintro ⟨tokens, hmunch, hread⟩
    exact Reader.derives_of_read hmunch hread
  · intro h
    obtain ⟨tokens, hmunch, hread⟩ := h.exists_tokens
    refine ⟨tokens, hmunch, hread (some L) fun L' hL' => ?_⟩
    exact Nat.le_of_eq (Option.some.inj hL')

/-! ## Documents one after another -/

/-- A decoder keeps the automaton of the patterns. -/
theorem automaton_decodeAll (d : Decoder) (texts : List (List Char)) :
    (d.decodeAll texts).2.lexer.automaton = d.lexer.automaton := by
  induction texts generalizing d with
  | nil => rfl
  | cons text texts ih =>
    have hscan : Lexer.Reaches d.lexer (d.lexer.scan text).lexer :=
      Lexer.reaches_use d.lexer (.tokenize text)
    exact (ih (d.decode text).2).trans hscan.automaton

theorem Decoder.decode_fst {d : Decoder} (h : d.lexer.automaton = jsonLexer.automaton) :
    (d.decode text).1 = JsonAutomata.decode text := by
  have hscan : d.lexer.scan text = jsonLexer.scan text := by
    rw [Lexer.scan, Lexer.reset, h]
    rfl
  rw [Decoder.decode, hscan]
  rfl

theorem Decoder.decodeAll_fst {d : Decoder} (h : d.lexer.automaton = jsonLexer.automaton)
    (texts : List (List Char)) : (d.decodeAll texts).1 = texts.map JsonAutomata.decode := by
  induction texts generalizing d with
  | nil => rfl
  | cons text texts ih =>
    have hnext : (d.decode text).2.lexer.automaton = jsonLexer.automaton :=
      (automaton_decodeAll d [text]).trans h
    show (d.decode text).1 :: ((d.decode text).2.decodeAll texts).1 = _
    rw [ih hnext, Decoder.decode_fst h]
    rfl

/-! ## The main result -/

/-- Decoding accepts exactly the elements of the grammar with at most 128 containers open at once,
and gives the value that the text denotes; every other text is an error.  Documents that a decoder
has read before make no difference. -/
theorem decode_iff_derives (text : List Char) :
    (∀ v, decode text = .ok v ↔ Derives 128 (.element v) text) ∧
      ((∃ e, decode text = .error e) ↔ ¬ ∃ v, Derives 128 (.element v) text) ∧
      ∀ before, ((Decoder.new.decodeAll before).2.decode text).1 = decode text := by
  have hok : ∀ v, decode text = .ok v ↔ Derives 128 (.element v) text :=
    fun v => decodeWithin_eq_ok_iff_derives
  refine ⟨hok, ?_, fun before => Decoder.decode_fst (automaton_decodeAll .new before)⟩
  cases hresult : decode text with
  | ok v =>
    refine ⟨?_, fun hnone => absurd ⟨v, (hok v).1 hresult⟩ hnone⟩
    rintro ⟨e, he⟩
    cases he
  | error e =>
    refine ⟨?_, fun _ => ⟨e, rfl⟩⟩
    rintro - ⟨v, hv⟩
    rw [(hok v).2 hv] at hresult
    cases hresult

/-- Whatever was done with a lexer and its copies, whole inputs and streams give what they give with
a new lexer.  After calls and a flush that succeeds, further characters and flushes are answered as
by a new lexer, further on by the bytes taken since the last reset.  So documents that are decoded
one after another, failed ones included, give what they give alone. -/
theorem history_independent (A : Automaton) (actions : List Lexer.Action) :
    (∀ lx ∈ actions.foldl Lexer.act [.ofAutomaton A],
      (∀ input, lx.tokenize input = (Lexer.ofAutomaton A).tokenize input) ∧
      (∀ input count, ((lx.stream input).take count).1
        = (((Lexer.ofAutomaton A).stream input).take count).1) ∧
      ∃ calls, ((Lexer.ofAutomaton A).session calls).lexer = lx) ∧
    (∀ calls token after, let s := (Lexer.ofAutomaton A).session calls
      s.lexer.flush = (.ok token, after) → ∀ more, ¬ .reset ∈ more →
        (after.session more).events = ((Lexer.ofAutomaton A).session more).events.map
          (Lexer.Event.shift (Utf8.byteLength (Lexer.taken s.events)))) ∧
    ∀ texts, (Decoder.new.decodeAll texts).1 = texts.map fun text => (Decoder.new.decode text).1 := by
  refine ⟨fun lx hlx => ?_, fun calls token after h more hmore => ?_, fun texts => ?_⟩
  · have hreaches := Lexer.reaches_of_mem hlx
    refine ⟨fun input => ?_, fun input count => ?_, hreaches⟩
    · unfold Lexer.tokenize Lexer.scan
      rw [hreaches.reset]
    · unfold Lexer.stream
      rw [hreaches.reset]
  · exact Lexer.events_after_flush A calls h hmore
  · rw [Decoder.decodeAll_fst (d := .new) rfl]
    apply List.map_congr_left
    exact fun text _ => (Decoder.decode_fst (d := .new) rfl).symm

end JsonAutomata
