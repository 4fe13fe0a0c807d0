import JsonAutomata.Proofs.Lexer.Priority
import JsonAutomata.Proofs.Lexer.Streams

/-!
# Transcripts — what can be seen of a lexer

A transcript holds all that the uses of a lexer answer, and what is pending after each of them.  Two
lexers have the same transcripts if a relation between them survives every call and the answers to
calls agree (`Bisimulation.transcript_eq`), since streams and whole inputs are made of calls.  All
that a call depends on are the texts that the automaton can read and the labels that it reports
(`SameReading.bisimulation`), so neither the numbers of the states nor a common entry can be seen,
nor the order of patterns of which no two label the same text differently.
-/

namespace JsonAutomata

theorem Scan.result_cons (token : Token) (s : Scan) :
    (s.cons token).result = s.result.map (token :: ·) := by
  unfold Scan.result Scan.cons
  dsimp only
  cases s.failure <;> rfl

namespace Lexer

/-! ## 1. Transcripts -/

inductive Outcome where
  | called (event : Event)
  | tokenized (result : Except LexError (List Token))
  | streamed (items : List (Option (Except LexError Token)))

def outcome (lx : Lexer) : Use → Outcome
  | .call c => .called (lx.answer c).1
  | .tokenize input => .tokenized (lx.tokenize input)
  | .stream input count => .streamed ((lx.stream input).take count).1

/-- The answers to some uses in a row, each with what is pending after it. -/
def transcript (lx : Lexer) : List Use → List (Outcome × String)
  | [] => []
  | u :: us => (lx.outcome u, (lx.use u).pending) :: (lx.use u).transcript us

/-- Related lexers answer each call alike and stay related, and the same text is pending in both. -/
structure Bisimulation (R : Lexer → Lexer → Prop) : Prop where
  answer : ∀ {lx lx' : Lexer}, R lx lx' → ∀ c : Call,
    (lx.answer c).1 = (lx'.answer c).1 ∧ R (lx.answer c).2 (lx'.answer c).2
  pending : ∀ {lx lx' : Lexer}, R lx lx' → lx.pending = lx'.pending

/-! ## 2. Uses of related lexers -/

namespace Bisimulation

variable {R : Lexer → Lexer → Prop} {lx lx' : Lexer}

theorem feed (h : Bisimulation R) (hR : R lx lx') (c : Char) :
    (lx.feed c).1 = (lx'.feed c).1 ∧ R (lx.feed c).2 (lx'.feed c).2 := by
  have ⟨hanswer, hnext⟩ := h.answer hR (.feed c)
  injection hanswer with _ hfeed
  exact ⟨hfeed, hnext⟩

theorem flush (h : Bisimulation R) (hR : R lx lx') :
    lx.flush.1 = lx'.flush.1 ∧ R lx.flush.2 lx'.flush.2 := by
  have ⟨hanswer, hnext⟩ := h.answer hR .flush
  injection hanswer with hflush
  exact ⟨hflush, hnext⟩

theorem reset (h : Bisimulation R) (hR : R lx lx') : R lx.reset lx'.reset :=
  (h.answer hR .reset).2

/-- The streams are at the same place of the same input. -/
def Abreast (R : Lexer → Lexer → Prop) (s s' : TokenStream) : Prop :=
  R s.lexer s'.lexer ∧ s.rest = s'.rest ∧ s.fed = s'.fed ∧ s.finished = s'.finished

theorem pull (h : Bisimulation R) (hR : R lx lx') (fed : Bool) (rest : List Char) :
    (TokenStream.pull lx fed rest).1 = (TokenStream.pull lx' fed rest).1 ∧
      Abreast R (TokenStream.pull lx fed rest).2 (TokenStream.pull lx' fed rest).2 := by
  induction rest generalizing lx lx' fed with
  | nil =>
    cases fed with
    | true =>
      have ⟨hitem, hnext⟩ := h.flush hR
      exact ⟨congrArg some hitem, hnext, rfl, rfl, rfl⟩
    | false => exact ⟨rfl, hR, rfl, rfl, rfl⟩
  | cons c rest ih =>
    have ⟨hfeed, hnext⟩ := h.feed hR c
    rcases hstep : lx.feed c with ⟨answer, after⟩
    rcases hstep' : lx'.feed c with ⟨answer', after'⟩
    rw [hstep, hstep'] at hfeed hnext
    dsimp only at hfeed hnext
    subst hfeed
    rw [TokenStream.pull, TokenStream.pull, hstep, hstep']
    -- The same answer makes both streams go on, or both rest.
    cases answer with
    | ok token =>
      cases token with
      | none => exact ih hnext true
      | some token => exact ⟨rfl, hnext, rfl, rfl, rfl⟩
    | error e => exact ⟨rfl, hnext, rfl, rfl, rfl⟩

theorem next (h : Bisimulation R) {s s' : TokenStream} (hs : Abreast R s s') :
    s.next.1 = s'.next.1 ∧ Abreast R s.next.2 s'.next.2 := by
  have ⟨hR, hrest, hfed, hfinished⟩ := hs
  unfold TokenStream.next
  rw [← hrest, ← hfed, ← hfinished]
  cases s.finished with
  | true => exact ⟨rfl, hs⟩
  | false => exact h.pull hR s.fed s.rest

theorem take (h : Bisimulation R) (count : Nat) {s s' : TokenStream} (hs : Abreast R s s') :
    (s.take count).1 = (s'.take count).1 ∧ Abreast R (s.take count).2 (s'.take count).2 := by
  induction count generalizing s s' with
  | zero => exact ⟨rfl, hs⟩
  | succ count ih =>
    have ⟨hitem, hnext⟩ := h.next hs
    have ⟨hitems, hafter⟩ := ih hnext
    refine ⟨?_, hafter⟩
    show s.next.1 :: (s.next.2.take count).1 = s'.next.1 :: (s'.next.2.take count).1
    rw [hitem, hitems]

theorem scanFrom (h : Bisimulation R) (hR : R lx lx') (fed : Bool) (input : List Char) :
    (lx.scanFrom fed input).result = (lx'.scanFrom fed input).result ∧
      R (lx.scanFrom fed input).lexer (lx'.scanFrom fed input).lexer := by
  induction input generalizing lx lx' fed with
  | nil =>
    cases fed with
    | true =>
      obtain ⟨hitem, hnext⟩ := h.flush hR
      rcases hstep : lx.flush with ⟨answer, after⟩
      rcases hstep' : lx'.flush with ⟨answer', after'⟩
      rw [hstep, hstep'] at hitem hnext
      dsimp only at hitem hnext
      subst hitem
      rw [Lexer.scanFrom, Lexer.scanFrom, if_pos rfl, if_pos rfl, hstep, hstep']
      cases answer with
      | ok token => exact ⟨rfl, hnext⟩
      | error e => exact ⟨rfl, hnext⟩
    | false => exact ⟨rfl, hR⟩
  | cons c rest ih =>
    obtain ⟨hfeed, hnext⟩ := h.feed hR c
    rcases hstep : lx.feed c with ⟨answer, after⟩
    rcases hstep' : lx'.feed c with ⟨answer', after'⟩
    rw [hstep, hstep'] at hfeed hnext
    dsimp only at hfeed hnext
    subst hfeed
    rw [Lexer.scanFrom, Lexer.scanFrom, hstep, hstep']
    cases answer with
    | ok token =>
      cases token with
      | none => exact ih hnext true
      | some token =>
        obtain ⟨hresult, hafter⟩ := ih hnext true
        refine ⟨?_, hafter⟩
        dsimp only
        rw [Scan.result_cons, Scan.result_cons, hresult]
    | error e => exact ⟨rfl, hnext⟩

theorem use (h : Bisimulation R) (hR : R lx lx') (u : Use) :
    lx.outcome u = lx'.outcome u ∧ R (lx.use u) (lx'.use u) := by
  cases u with
  | call c =>
    have ⟨hanswer, hnext⟩ := h.answer hR c
    exact ⟨congrArg Outcome.called hanswer, hnext⟩
  | tokenize input =>
    have ⟨hresult, hnext⟩ := h.scanFrom (h.reset hR) false input
    exact ⟨congrArg Outcome.tokenized hresult, hnext⟩
  | stream input count =>
    have ⟨hitems, hnext⟩ := h.take count
      (show Abreast R (lx.stream input) (lx'.stream input) from ⟨h.reset hR, rfl, rfl, rfl⟩)
    exact ⟨congrArg Outcome.streamed hitems, hnext.1⟩

theorem transcript_eq (h : Bisimulation R) (hR : R lx lx') (uses : List Use) :
    lx.transcript uses = lx'.transcript uses := by
  induction uses generalizing lx lx' with
  | nil => rfl
  | cons u uses ih =>
    have ⟨houtcome, hnext⟩ := h.use hR u
    rw [transcript, transcript, houtcome, h.pending hnext, ih hnext]

end Bisimulation

/-! ## 3. Automata that read and report the same -/

/-- The automata can read the same texts, the empty one aside, and report the same labels. -/
structure SameReading (A B : Automaton) : Prop where
  live : ∀ w, w ≠ [] → (Live A w ↔ Live B w)
  reports : ∀ w label, Reports A w label ↔ Reports B w label

/-- After the same run the lexers are at the same offset, each over its own automaton. -/
def Alike (A B : Automaton) (lx lx' : Lexer) : Prop :=
  ∃ offset run, Holds A lx offset run ∧ Holds B lx' offset run

section Alike

variable {A B : Automaton} {lx lx' : Lexer} {offset : Nat} {run : List Char}

theorem Holds.invalid (h : Holds A lx offset run) (found : Option Char) :
    lx.invalid found = ⟨found, String.ofList run, offset + Utf8.byteLength run⟩ := by
  rw [Lexer.invalid, h.buffer, h.start, utf8ByteSize_ofList]

theorem Holds.reset (h : Holds A lx offset run) : Holds A lx.reset 0 [] :=
  h.automaton ▸ holds_reset lx

theorem SameReading.feed (hsame : SameReading A B) (h : Holds A lx offset run)
    (h' : Holds B lx' offset run) (c : Char) :
    (lx.feed c).1 = (lx'.feed c).1 ∧ Alike A B (lx.feed c).2 (lx'.feed c).2 := by
  -- Which of its three cases applies does not depend on the automaton.
  have hext : Live A (run ++ [c]) ↔ Live B (run ++ [c]) := hsame.live _ (by simp)
  rcases h.feed_cases c with ⟨hlive, after, hfeed, hafter⟩ |
    ⟨hdead, label, after, hlabel, hfeed, hafter⟩ | ⟨hdead, hnone, hfeed⟩
  · rcases h'.feed_extend (hext.1 hlive) with ⟨after', hfeed', hafter'⟩
    rw [hfeed, hfeed']
    exact ⟨rfl, offset, _, hafter, hafter'⟩
  · have hdead' : ¬ Live B (run ++ [c]) := fun hB => hdead (hext.2 hB)
    rcases h'.feed_emit hdead' ((hsame.reports run label).1 hlabel) with ⟨after', hfeed', hafter'⟩
    rw [hfeed, hfeed']
    exact ⟨rfl, _, _, hafter, hafter'⟩
  · have hdead' : ¬ Live B (run ++ [c]) := fun hB => hdead (hext.2 hB)
    have hnone' : ∀ label, ¬ Reports B run label :=
      fun label hl => hnone label ((hsame.reports run label).2 hl)
    rw [hfeed, h'.feed_refuse hdead' hnone', h.invalid, h'.invalid]
    exact ⟨rfl, offset, run, h, h'⟩

theorem SameReading.flush (hsame : SameReading A B) (h : Holds A lx offset run)
    (h' : Holds B lx' offset run) :
    lx.flush.1 = lx'.flush.1 ∧ Alike A B lx.flush.2 lx'.flush.2 := by
  rcases h.flush_cases with ⟨label, after, hlabel, hflush, hafter⟩ | ⟨hnone, hflush⟩
  · rcases h'.flush_emit ((hsame.reports run label).1 hlabel) with ⟨after', hflush', hafter'⟩
    rw [hflush, hflush']
    exact ⟨rfl, _, _, hafter, hafter'⟩
  · have hnone' : ∀ label, ¬ Reports B run label :=
      fun label hl => hnone label ((hsame.reports run label).2 hl)
    rw [hflush, h'.flush_refuse hnone', h.invalid, h'.invalid]
    exact ⟨rfl, offset, run, h, h'⟩

theorem SameReading.bisimulation (hsame : SameReading A B) : Bisimulation (Alike A B) := by
  refine ⟨?_, ?_⟩
  · rintro lx lx' ⟨offset, run, h, h'⟩ c
    cases c with
    | feed c =>
      have ⟨hfeed, hnext⟩ := hsame.feed h h' c
      exact ⟨congrArg (Event.fed c) hfeed, hnext⟩
    | flush =>
      have ⟨hflush, hnext⟩ := hsame.flush h h'
      exact ⟨congrArg Event.flushed hflush, hnext⟩
    | reset => exact ⟨rfl, 0, [], h.reset, h'.reset⟩
  · rintro lx lx' ⟨offset, run, h, h'⟩
    show lx.buffer = lx'.buffer
    rw [h.buffer, h'.buffer]

theorem SameReading.transcript_eq (hsame : SameReading A B) (uses : List Use) :
    (ofAutomaton A).transcript uses = (ofAutomaton B).transcript uses := by
  have hnew : Alike A B (ofAutomaton A) (ofAutomaton B) :=
    ⟨0, [], ⟨rfl, rfl, rfl, rfl⟩, ⟨rfl, rfl, rfl, rfl⟩⟩
  exact hsame.bisimulation.transcript_eq hnew uses

end Alike

/-! ## 4. Patterns in any order -/

/-- Of patterns without inner labels only the order of ambiguous ones can be seen. -/
theorem sameReading_of_perm {patterns others : List Term} (hflat : ∀ p ∈ patterns, p.isFlat = true)
    (hunambiguous : Unambiguous patterns) (hperm : others.Perm patterns) :
    SameReading (compile others) (compile patterns) := by
  have hmem : ∀ {p : Term}, p ∈ others → p ∈ patterns := fun hp => hperm.mem_iff.1 hp
  have hflat' : ∀ p ∈ others, p.isFlat = true := fun p hp => hflat p (hmem hp)
  have hunambiguous' : Unambiguous others := fun p hp q hq =>
    hunambiguous p (hmem hp) q (hmem hq)
  have hexists : ∀ P : Term → Prop, (∃ p ∈ others, P p) ↔ ∃ p ∈ patterns, P p := fun P =>
    exists_congr fun p => and_congr_left' hperm.mem_iff
  refine ⟨fun w hne => ?_, fun w label => ?_⟩
  · rw [live_compile_iff hne, live_compile_iff hne]
    exact hexists _
  · rw [reports_compile_of_isFlat hflat, reports_compile_of_isFlat hflat',
      hunambiguous.earliest_iff, hunambiguous'.earliest_iff]
    exact hexists _

/-! ## 5. Patterns under a common entry -/

/-- Whatever numbers the states have, patterns under a common entry read and report what the
compiled patterns do, a single pattern included. -/
theorem sameReading_compile (patterns : List Term) (b : Builder) :
    SameReading (compile patterns)
      (Automaton.merge b.fresh.1 (b.fresh.2.buildAll patterns).1) := by
  have hmerged : Automaton.merge b.fresh.1 (b.fresh.2.buildAll patterns).1
      = Thompson.merged b.allocated (b.allocated + 1) patterns := by
    rw [Thompson.merged, Thompson.buildAll_fst]
    rfl
  have hentry : b.allocated < b.allocated + 1 := Nat.lt_succ_self b.allocated
  rw [hmerged]
  refine ⟨fun w hne => ?_, fun w label => ?_⟩
  · rw [Thompson.live_merged_iff hentry hne]
    exact live_compile_iff hne
  · rw [Thompson.reports_merged_iff hentry, reports_compile_iff]

/-- A pattern that is compiled by itself cannot be told from the same pattern under an entry that was
allocated before it: every sequence of calls, whole inputs and streams gives the same tokens and the
same errors, and leaves the same text pending after each of them. -/
theorem transcript_single_eq (p : Term) (b : Builder) (uses : List Use) :
    (ofPatterns [p]).transcript uses
      = (ofAutomaton (Automaton.merge b.fresh.1 [(b.fresh.2.build p).1])).transcript uses :=
  (sameReading_compile [p] b).transcript_eq uses

end Lexer

end JsonAutomata
