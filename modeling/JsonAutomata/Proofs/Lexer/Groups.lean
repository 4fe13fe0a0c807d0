import JsonAutomata.Proofs.Lexer.Priority
import JsonAutomata.Proofs.Lexer.Streams

/-!
# Groups — tokens of patterns with labels at any depth

Whatever a lexer was put through before, the label of a token is what the automaton reports for its
content (`Gives.reports`).  So of several patterns the first one that reports anything decides, and
the label of that pattern as a whole takes precedence over those of the groups within it.
-/

namespace JsonAutomata

namespace Lexer

variable {A : Automaton} {lx : Lexer} {offset : Nat} {run : List Char} {t : Token} {c : Call}

/-- A call that gives a token gives the run under its label. -/
theorem Holds.eq_of_answer (h : Holds A lx offset run) (ht : (lx.answer c).1.token? = some t) :
    ∃ label, Reports A run label ∧ t = Token.ofRun run label offset := by
  cases c with
  | feed c =>
    rcases h.feed_cases c with ⟨_, lx', hfeed, _⟩ | ⟨_, label, lx', hlabel, hfeed, _⟩ | ⟨_, _, hfeed⟩
    · rw [answer, hfeed] at ht
      cases ht
    · rw [answer, hfeed] at ht
      cases ht
      exact ⟨label, hlabel, rfl⟩
    · rw [answer, hfeed] at ht
      cases ht
  | flush =>
    rcases h.flush_cases with ⟨label, lx', hlabel, hflush, _⟩ | ⟨_, hflush⟩
    · rw [answer, hflush] at ht
      cases ht
      exact ⟨label, hlabel, rfl⟩
    · rw [answer, hflush] at ht
      cases ht
  | reset => cases ht

/-- A token carries what the automaton reports for its content. -/
theorem Gives.reports (h : (ofAutomaton A).Gives t) : Reports A t.content.toList t.label := by
  rcases h with ⟨_, ⟨calls, rfl⟩, c, ht⟩
  rcases exists_accounts A calls with ⟨offset, run, hs⟩
  rcases hs.holds.eq_of_answer ht with ⟨label, hlabel, rfl⟩
  show Reports A (String.ofList run).toList label
  rw [String.toList_ofList]
  exact hlabel

/-- The same for a token of a lexer that was used in any way, given by one call or with a whole
input. -/
theorem reports_of_emitted {actions : List Action} (hlx : lx ∈ actions.foldl act [ofAutomaton A])
    (ht : lx.Gives t ∨ ∃ input, t ∈ (lx.scan input).tokens) :
    Reports A t.content.toList t.label := by
  have hgives : lx.Gives t := by
    rcases ht with hgives | ⟨input, hmem⟩
    · exact hgives
    · exact gives_of_mem_scan hmem
  exact Gives.reports (hgives.after (reaches_of_mem hlx))

/-- Patterns may have labels at any depth, and the lexer may be a copy that was used before in any
way: a token, given by one call or with a whole input, belongs to the first pattern that reaches a
final state by its content.  Its label is the one that this pattern reports by itself, and that of
the pattern as a whole if there is one and the pattern matches. -/
theorem label_of_emitted (patterns : List Term) (actions : List Action)
    (hlx : lx ∈ actions.foldl act [ofPatterns patterns])
    (ht : lx.Gives t ∨ ∃ input, t ∈ (lx.scan input).tokens) :
    ∃ before p after, patterns = before ++ p :: after ∧
      (∀ q ∈ before, (Builder.new.build q).1.accepts t.content.toList = false) ∧
      Reports (Builder.new.build p).1 t.content.toList t.label ∧
      ∀ own, p.label? = some own → t.content.toList ∈ p.language → t.label = own := by
  rcases reports_compile_iff.1 (reports_of_emitted hlx ht) with ⟨before, p, after, heq, hp, hbefore⟩
  refine ⟨before, p, after, heq, hbefore, hp, fun own hown hw => ?_⟩
  exact (Builder.reports_build_of_label? hown hw).1 hp

/-- The right part of the second pattern is a group that ends where the pattern ends. -/
theorem label_of_emitted_nested :
    let digit : Term := .labeled "digit" .digits
    let pair : Term := .labeled "pair" (.seq (.labeled "left" .letters) (.labeled "right" .letters))
    let lx := ofPatterns [digit, pair]
    let t : Token := ⟨"ab", "pair", ⟨0, 2⟩⟩
    lx ∈ [].foldl act [ofPatterns [digit, pair]] ∧ t ∈ (lx.scan "ab".toList).tokens ∧
      ∃ before p after, [digit, pair] = before ++ p :: after ∧
        (∀ q ∈ before, (Builder.new.build q).1.accepts t.content.toList = false) ∧
        Reports (Builder.new.build p).1 t.content.toList t.label ∧
        ∀ own, p.label? = some own → t.content.toList ∈ p.language → t.label = own := by
  intro digit pair lx t
  have hlx : lx ∈ [].foldl act [ofPatterns [digit, pair]] := List.mem_singleton_self lx
  have ht : t ∈ (lx.scan "ab".toList).tokens := by decide +kernel
  exact ⟨hlx, ht, label_of_emitted [digit, pair] [] hlx (.inr ⟨_, ht⟩)⟩

end Lexer

end JsonAutomata
