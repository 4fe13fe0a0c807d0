import JsonAutomata.Proofs.Thompson.Blocks

/-!
# Priority — lexers of lists of patterns

A text is reported under what the first pattern of the list reports that reports anything for it
(`reports_compile_iff`).  If patterns are labelled as wholes only, that is the label of the earliest
one that matches, and the lexer cuts every text by maximal munch over the patterns.
-/

open Computability

namespace JsonAutomata

/-! ## 1. Labels by priority -/

/-- The label of the earliest labelled pattern that matches the text. -/
def Earliest (patterns : List Term) (w : List Char) (label : Label) : Prop :=
  ∃ before p after, patterns = before ++ p :: after ∧ p.label? = some label ∧ w ∈ p.language ∧
    ∀ q ∈ before, q.isGrouped = true → ¬ w ∈ q.language

def Consumable (patterns : List Term) (w : List Char) : Prop := ∃ p ∈ patterns, w ∈ p.consumable

theorem not_earliest_nil {w : List Char} {label : Label} : ¬ Earliest [] w label := by
  rintro ⟨before, p, after, heq, -⟩
  cases before with
  | nil => cases heq
  | cons q before => cases heq

theorem earliest_cons_iff {p : Term} {ps : List Term} {w : List Char} {label : Label} :
    Earliest (p :: ps) w label ↔ (p.label? = some label ∧ w ∈ p.language) ∨
      ((p.isGrouped = true → ¬ w ∈ p.language) ∧ Earliest ps w label) := by
  constructor
  · rintro ⟨before, q, after, heq, hlabel, hw, hbefore⟩
    cases before with
    | nil =>
      cases heq
      exact .inl ⟨hlabel, hw⟩
    | cons r before =>
      cases heq
      refine .inr ⟨hbefore p List.mem_cons_self, before, q, after, rfl, hlabel, hw, ?_⟩
      exact fun s hs => hbefore s (List.mem_cons_of_mem p hs)
  · rintro (⟨hlabel, hw⟩ | ⟨hp, before, q, after, rfl, hlabel, hw, hbefore⟩)
    · exact ⟨[], p, ps, rfl, hlabel, hw, fun q hq => absurd hq List.not_mem_nil⟩
    · refine ⟨p :: before, q, after, rfl, hlabel, hw, fun r hr => ?_⟩
      rcases List.mem_cons.1 hr with rfl | hr
      · exact hp
      · exact hbefore r hr

theorem Earliest.unique {ps : List Term} {w : List Char} {l l' : Label} (h : Earliest ps w l)
    (h' : Earliest ps w l') : l = l' := by
  have hgrouped : ∀ {p : Term} {l : Label}, p.label? = some l → p.isGrouped = true :=
    fun hl => Option.isSome_of_eq_some hl
  induction ps with
  | nil => exact absurd h not_earliest_nil
  | cons p ps ih =>
    rcases earliest_cons_iff.1 h with ⟨hl, hw⟩ | ⟨hnot, htail⟩ <;>
      rcases earliest_cons_iff.1 h' with ⟨hl', hw'⟩ | ⟨hnot', htail'⟩
    · exact Option.some.inj (hl.symm.trans hl')
    · exact absurd hw (hnot' (hgrouped hl))
    · exact absurd hw' (hnot (hgrouped hl'))
    · exact ih htail htail'

theorem exists_earliest {ps : List Term} {p : Term} {w : List Char} (hp : p ∈ ps)
    (hgrouped : p.isGrouped = true) (hw : w ∈ p.language) : ∃ label, Earliest ps w label := by
  induction ps with
  | nil => exact absurd hp List.not_mem_nil
  | cons q ps ih =>
    by_cases hq : q.isGrouped = true ∧ w ∈ q.language
    · obtain ⟨label, hlabel⟩ := Option.isSome_iff_exists.1 hq.1
      exact ⟨label, earliest_cons_iff.2 (.inl ⟨hlabel, hq.2⟩)⟩
    · rcases List.mem_cons.1 hp with rfl | hp
      · exact absurd ⟨hgrouped, hw⟩ hq
      · obtain ⟨label, hlabel⟩ := ih hp
        exact ⟨label, earliest_cons_iff.2 (.inr ⟨fun h h' => hq ⟨h, h'⟩, hlabel⟩)⟩

/-- Labelled patterns that match the same text have the same label. -/
def Unambiguous (patterns : List Term) : Prop :=
  ∀ p ∈ patterns, ∀ q ∈ patterns, ∀ l l' w, p.label? = some l → q.label? = some l' →
    w ∈ p.language → w ∈ q.language → l = l'

/-- Where patterns are unambiguous, their order does not matter. -/
theorem Unambiguous.earliest_iff {ps : List Term} (h : Unambiguous ps) {w : List Char}
    {label : Label} :
    Earliest ps w label ↔ ∃ p ∈ ps, p.label? = some label ∧ w ∈ p.language := by
  have hsound : ∀ l, Earliest ps w l → ∃ p ∈ ps, p.label? = some l ∧ w ∈ p.language := by
    rintro l ⟨before, p, after, rfl, hlabel, hw, -⟩
    exact ⟨p, by simp, hlabel, hw⟩
  refine ⟨hsound label, ?_⟩
  rintro ⟨p, hp, hlabel, hw⟩
  obtain ⟨l, hl⟩ := exists_earliest hp (Option.isSome_of_eq_some hlabel) hw
  obtain ⟨q, hq, hother, hw'⟩ := hsound l hl
  rw [h p hp q hq label l w hlabel hother hw hw']
  exact hl

/-! ## 2. Lexers of patterns -/

namespace Lexer

variable {patterns : List Term} {p : Term} {w : List Char} {label : Label}

theorem live_compile_iff (hne : w ≠ []) : Live (compile patterns) w ↔ Consumable patterns w := by
  have hmerged : Live (Thompson.merged 0 1 patterns) w ↔ Consumable patterns w :=
    Thompson.live_merged_iff (by omega) hne
  match patterns with
  | [] => exact hmerged
  | [p] =>
    have hentry : (compile [p]).entry = 0 := Builder.entry_build p .new
    unfold Live Consumable
    have hpath : (∃ q, (compile [p]).Path 0 w q) ↔ w ∈ p.consumable :=
      Thompson.exists_path_iff (by decide) (by decide) (by decide)
    rw [hentry, hpath]
    constructor
    · exact fun hw => ⟨p, List.mem_singleton_self p, hw⟩
    · rintro ⟨q, hq, hw⟩
      exact List.mem_singleton.1 hq ▸ hw
  | p :: q :: ps =>
    rw [Thompson.merged, ← Thompson.buildAll_fst (p :: q :: ps) ⟨1⟩] at hmerged
    exact hmerged

/-- The label of a text is what the first pattern reports for it that reports anything. -/
theorem reports_compile_iff : Reports (compile patterns) w label ↔
    ∃ before p after, patterns = before ++ p :: after ∧
      Reports (Builder.new.build p).1 w label ∧
      ∀ q ∈ before, (Builder.new.build q).1.accepts w = false := by
  have hmerged : Reports (Thompson.merged 0 1 patterns) w label ↔ _ :=
    Thompson.reports_merged_iff Nat.zero_lt_one
  match patterns with
  | [] => exact hmerged
  | [p] =>
    constructor
    · exact fun h => ⟨[], p, [], rfl, h, fun q hq => absurd hq List.not_mem_nil⟩
    · rintro ⟨before, q, after, heq, hq, -⟩
      cases before with
      | nil =>
        cases heq
        exact hq
      | cons r before => simp at heq
  | p :: q :: ps =>
    rw [Thompson.merged, ← Thompson.buildAll_fst (p :: q :: ps) ⟨1⟩] at hmerged
    exact hmerged

/-- A pattern without inner labels reports its label for the texts that it matches. -/
theorem reports_build_of_isFlat (hflat : p.isFlat = true) :
    Reports (Builder.new.build p).1 w label ↔ p.label? = some label ∧ w ∈ p.language := by
  constructor
  · intro h
    rcases Automaton.bestLabel_eq_some_iff.1 h with ⟨q, hq, hlabel, -⟩
    rw [Builder.build_fst, Thompson.label?_fragment_of_isFlat hflat] at hlabel
    split at hlabel
    · rename_i heq
      exact ⟨hlabel, (Builder.mem_reached_build p .new w).1 (heq ▸ hq)⟩
    · cases hlabel
  · rintro ⟨hlabel, hw⟩
    exact (Builder.reports_build_of_label? hlabel hw).2 rfl

theorem accepts_build_of_isFlat (hflat : p.isFlat = true) :
    (Builder.new.build p).1.accepts w = false ↔ (p.isGrouped = true → ¬ w ∈ p.language) := by
  rw [← Bool.not_eq_true, accepts_iff_reports, Term.isGrouped, Option.isSome_iff_exists]
  simp only [reports_build_of_isFlat hflat, exists_and_right, not_and]

theorem reports_compile_of_isFlat (hflat : ∀ p ∈ patterns, p.isFlat = true) :
    Reports (compile patterns) w label ↔ Earliest patterns w label := by
  rw [reports_compile_iff]
  constructor
  · rintro ⟨before, p, after, rfl, hp, hbefore⟩
    rcases (reports_build_of_isFlat (hflat p (by simp))).1 hp with ⟨hlabel, hw⟩
    exact ⟨before, p, after, rfl, hlabel, hw, fun q hq =>
      (accepts_build_of_isFlat (hflat q (by simp [hq]))).1 (hbefore q hq)⟩
  · rintro ⟨before, p, after, rfl, hlabel, hw, hbefore⟩
    have hp := (reports_build_of_isFlat (hflat p (by simp))).2 ⟨hlabel, hw⟩
    exact ⟨before, p, after, rfl, hp, fun q hq =>
      (accepts_build_of_isFlat (hflat q (by simp [hq]))).2 (hbefore q hq)⟩

/-- The lexer of patterns cuts a text by maximal munch over the patterns. -/
theorem tokenize_eq_ok_iff (hflat : ∀ p ∈ patterns, p.isFlat = true) {input : List Char}
    {tokens : List Token} : (ofPatterns patterns).tokenize input = .ok tokens ↔
      Munch (Consumable patterns) (Earliest patterns) 0 input tokens := by
  rw [ofPatterns, tokenize_ofAutomaton_iff]
  constructor
  · exact Munch.congr (fun w hne => live_compile_iff hne)
      fun w label _ => reports_compile_of_isFlat hflat
  · exact Munch.congr (fun w hne => (live_compile_iff hne).symm)
      fun w label _ => (reports_compile_of_isFlat hflat).symm

/-- The lexer of patterns without inner labels cuts a text into the longest runs that can be read
into some pattern, each under the label of the earliest pattern that matches it, and fails where
there is no such label.  So no token is empty, even if patterns match the empty text. -/
theorem tokenize_ofPatterns_iff (hflat : ∀ p ∈ patterns, p.isFlat = true) (input : List Char)
    (tokens : List Token) :
    ((ofPatterns patterns).tokenize input = .ok tokens ↔
      Munch (Consumable patterns) (Earliest patterns) 0 input tokens) ∧
    ((ofPatterns patterns).tokenize input = .ok tokens → ∀ t ∈ tokens, t.content ≠ "") := by
  have hmunch : (ofPatterns patterns).tokenize input = .ok tokens ↔
      Munch (Consumable patterns) (Earliest patterns) 0 input tokens := tokenize_eq_ok_iff hflat
  exact ⟨hmunch, fun h => (hmunch.1 h).content_ne_empty⟩

/-- A word that matches the empty text as well, after a keyword, which wins the tie. -/
theorem tokenize_ofPatterns_keyword :
    let keyword : Term := .labeled "keyword" (.literal ['a', 'b'])
    let word : Term := .labeled "word" (.star (.oneOf ['a', 'b'] "[ab]"))
    let blank : Term := .labeled "blank" (.literal [' '])
    let tokens : List Token := [⟨"ab", "keyword", ⟨0, 2⟩⟩, ⟨" ", "blank", ⟨2, 3⟩⟩,
      ⟨"aba", "word", ⟨3, 6⟩⟩]
    (∀ p ∈ [keyword, word, blank], p.isFlat = true) ∧
      Munch (Consumable [keyword, word, blank]) (Earliest [keyword, word, blank]) 0
        "ab aba".toList tokens := by
  intro keyword word blank tokens
  have hflat : ∀ p ∈ [keyword, word, blank], p.isFlat = true := by decide
  exact ⟨hflat, (tokenize_ofPatterns_iff hflat _ tokens).1.1 (by decide +kernel)⟩

end Lexer

end JsonAutomata
