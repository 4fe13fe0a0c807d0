import JsonAutomata.Proofs.Json.Tokens
import JsonAutomata.Proofs.Lexer.Transcripts

/-!
# Precedence — JSON patterns in any order

Lists of patterns give precedence to the earlier ones, and the states of their automaton are numbered
in that order.  The JSON patterns need no precedence: a text can be read into one of them only, as
its first character tells which (`TokenKind.eq_of_consumable`).  So lexers of all permutations answer
alike.
-/

namespace JsonAutomata

namespace TokenKind

/-- Whatever the order of the JSON patterns, a text has the same tokens or the same error, and no
sequence of calls, whole inputs and streams tells the lexers apart. -/
theorem tokenize_perm {patterns : List Term} (hperm : patterns.Perm jsonPatterns) :
    (∀ text, (Lexer.ofPatterns patterns).tokenize text = jsonTokens text) ∧
      ∀ uses, (Lexer.ofPatterns patterns).transcript uses = jsonLexer.transcript uses := by
  have hflat : ∀ p ∈ jsonPatterns, p.isFlat = Bool.true := by decide
  have hsame : Lexer.SameReading (Lexer.compile patterns) (Lexer.compile jsonPatterns) :=
    Lexer.sameReading_of_perm hflat unambiguous_jsonPatterns hperm
  have htranscript : ∀ uses,
      (Lexer.ofPatterns patterns).transcript uses = jsonLexer.transcript uses :=
    hsame.transcript_eq
  refine ⟨fun text => ?_, htranscript⟩
  have htokenize := (List.cons.inj (htranscript [.tokenize text])).1
  injection htokenize with houtcome _
  injection houtcome

/-- Punctuation before numbers, and numbers before literals: an unfinished literal stays an error. -/
theorem tokenize_perm_reverse :
    jsonPatterns.reverse.Perm jsonPatterns ∧
      (Lexer.ofPatterns jsonPatterns.reverse).tokenize "[-0.5e1, nul]".toList
        = jsonTokens "[-0.5e1, nul]".toList := by
  have hperm : jsonPatterns.reverse.Perm jsonPatterns := List.reverse_perm jsonPatterns
  exact ⟨hperm, (tokenize_perm hperm).1 _⟩

end TokenKind

end JsonAutomata
