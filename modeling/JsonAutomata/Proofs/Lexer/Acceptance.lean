import JsonAutomata.Automaton.Simulation
import JsonAutomata.Proofs.Automaton.Merging
import JsonAutomata.Proofs.Lexer.Munch

/-!
# Acceptance — texts that are one token

An automaton accepts a text that leads from its entry to a final state.  A lexer over the same
automaton reads on through final states and begins anew where it cannot, so it may cut a text that is
not accepted into several tokens.  It answers with one token exactly for the texts that are accepted
(`accepts_iff_single_token`).
-/

namespace JsonAutomata

namespace Automaton

variable {A : Automaton}

/-! ## 1. Giving up early -/

/-- Where no state is left, no text leads anywhere. -/
theorem bestFinal_foldl_of_isEmpty {current : StateSet} {c : Char}
    (hempty : (A.advance current c).isEmpty = true) (w : List Char) :
    A.bestFinal (w.foldl A.advance (A.advance current c)) = none := by
  apply Option.eq_none_iff_forall_ne_some.2
  intro q hq
  have hmem : q ∈ w.foldl A.advance (A.advance current c) := (bestFinal_eq_some_iff.1 hq).1
  obtain ⟨p, hp, -⟩ := mem_foldl_advance.1 hmem
  have hnext : p ∈ A.advance current c := mem_epsilonClosure.2 ⟨p, hp, .refl p⟩
  exact SortedSet.isEmpty_iff.1 hempty p hnext

theorem acceptsFrom_eq (current : StateSet) (w : List Char) :
    A.acceptsFrom current w = (A.bestFinal (w.foldl A.advance current)).isSome := by
  induction w generalizing current with
  | nil => rfl
  | cons c w ih =>
    show (if (A.advance current c).isEmpty then false else A.acceptsFrom (A.advance current c) w)
      = (A.bestFinal (w.foldl A.advance (A.advance current c))).isSome
    by_cases hempty : (A.advance current c).isEmpty = true
    · rw [if_pos hempty, bestFinal_foldl_of_isEmpty hempty]
      rfl
    · rw [if_neg hempty]
      exact ih _

/-- Characters behind the place where a text cannot be read do not matter. -/
theorem simulate_eq_accepts (w : List Char) : A.simulate w = A.accepts w := acceptsFrom_eq A.start w

end Automaton

/-! ## 2. One token -/

/-- A text is one token if all of it can be read and has a label. -/
theorem munch_singleton_iff {live : List Char → Prop} {labels : List Char → Label → Prop}
    {offset : Nat} {text : List Char} {t : Token} (hne : text ≠ []) :
    Munch live labels offset text [t] ↔
      LongestRun live text text ∧ ∃ label, labels text label ∧ t = Token.ofRun text label offset := by
  constructor
  · intro h
    cases h with
    | @token _ run rest label _ _ hlongest hlabel htail =>
      cases htail
      rw [List.append_nil] at hlongest ⊢
      exact ⟨hlongest, label, hlabel, rfl⟩
  · intro ⟨hlongest, label, hlabel, ht⟩
    have hlongest' : LongestRun live text (text ++ []) := by rwa [List.append_nil]
    have hmunch : Munch live labels offset (text ++ []) [Token.ofRun text label offset] :=
      .token hne hlongest' hlabel (.done _)
    rwa [List.append_nil, ← ht] at hmunch

namespace Lexer

variable {A : Automaton} {w : List Char} {t : Token}

theorem tokenize_eq_singleton_iff (hne : w ≠ []) :
    (ofAutomaton A).tokenize w = .ok [t] ↔
      ∃ label, Reports A w label ∧ t = Token.ofRun w label 0 := by
  rw [tokenize_ofAutomaton_iff, munch_singleton_iff hne, and_iff_right_iff_imp]
  intro ⟨label, hlabel, _⟩
  have hlongest : LongestRun (Live A) w (w ++ []) := longestRun_self hlabel.live
  rwa [List.append_nil] at hlongest

/-- A text that is not empty is accepted if and only if the lexer of the automaton answers it with
one token.  The token is the whole text, under the label of the first final state that the text leads
to.  Giving up where no state is left does not change what is accepted. -/
theorem accepts_iff_single_token (A : Automaton) {w : List Char} (hne : w ≠ []) :
    A.simulate w = A.accepts w ∧
      (A.accepts w = true ↔ ∃ t, (ofAutomaton A).tokenize w = .ok [t]) ∧
      ∀ t, (ofAutomaton A).tokenize w = .ok [t] →
        t.content.toList = w ∧ t.span = ⟨0, Utf8.byteLength w⟩ ∧
          ∃ q, A.bestFinal (A.reached w) = some q ∧ A.label? q = some t.label := by
  refine ⟨Automaton.simulate_eq_accepts w, ?_, ?_⟩
  · simp only [accepts_iff_reports, tokenize_eq_singleton_iff hne]
    constructor
    · intro ⟨label, hlabel⟩
      exact ⟨_, label, hlabel, rfl⟩
    · intro ⟨_, label, hlabel, _⟩
      exact ⟨label, hlabel⟩
  · intro t ht
    obtain ⟨label, hlabel, rfl⟩ := (tokenize_eq_singleton_iff hne).1 ht
    have hbest : (A.bestFinal (A.reached w)).bind A.label? = some label := by
      rw [← Automaton.bestLabel_eq_bind]
      exact hlabel
    refine ⟨String.toList_ofList, ?_, Option.bind_eq_some_iff.1 hbest⟩
    show Span.mk 0 (0 + Utf8.byteLength w) = ⟨0, Utf8.byteLength w⟩
    rw [Nat.zero_add]

/-- Two patterns match the text, and one of them the empty text as well. -/
theorem accepts_iff_single_token_keyword :
    let A := compile [.labeled "keyword" (.literal ['a', 'b']),
      .labeled "word" (.star (.oneOf ['a', 'b'] "[ab]"))]
    ['a', 'b'] ≠ [] ∧ A.accepts ['a', 'b'] = true ∧
      ∃ q, A.bestFinal (A.reached ['a', 'b']) = some q ∧ A.label? q = some "keyword" := by
  intro A
  have hne : ['a', 'b'] ≠ [] := List.cons_ne_nil 'a' ['b']
  have htoken : (ofAutomaton A).tokenize ['a', 'b'] = .ok [⟨"ab", "keyword", ⟨0, 2⟩⟩] := by
    decide +kernel
  obtain ⟨_, haccepts, hlabel⟩ := accepts_iff_single_token A hne
  exact ⟨hne, haccepts.2 ⟨_, htoken⟩, (hlabel _ htoken).2.2⟩

end Lexer

end JsonAutomata
