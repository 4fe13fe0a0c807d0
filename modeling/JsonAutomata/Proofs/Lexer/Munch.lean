import JsonAutomata.Lexer.Stream
import JsonAutomata.Proofs.Automaton.Assembly
import JsonAutomata.Proofs.Automaton.Reachability
import JsonAutomata.Text.Utf8
import Mathlib.Data.List.Induction

/-!
# Maximal munch — the procedure and the lexer

`Munch` cuts a text into runs, each of them the longest prefix of what is left that can be read at
all.  The lexer looks at one character at a time, and emits a run only when it has seen the
character after it.  `tokenize_ofAutomaton_iff` says that it still cuts every text in the same way,
and fails where the procedure is stuck.
-/

namespace JsonAutomata

/-! ## 1. The procedure -/

def Token.ofRun (run : List Char) (label : Label) (offset : Nat) : Token :=
  ⟨String.ofList run, label, ⟨offset, offset + Utf8.byteLength run⟩⟩

structure LongestRun (live : List Char → Prop) (run text : List Char) : Prop where
  starts : run <+: text
  readable : live run
  longest : ∀ other, other <+: text → live other → other.length ≤ run.length

/-- The tokens of a text, which begins at an offset, by repeated longest runs.  Where the longest
run is empty or has no label there are none. -/
inductive Munch (live : List Char → Prop) (labels : List Char → Label → Prop) :
    Nat → List Char → List Token → Prop
  | done (offset : Nat) : Munch live labels offset [] []
  | token {offset : Nat} {run rest : List Char} {label : Label} {tokens : List Token}
      (nonempty : run ≠ []) (longest : LongestRun live run (run ++ rest))
      (labelled : labels run label)
      (tail : Munch live labels (offset + Utf8.byteLength run) rest tokens) :
      Munch live labels offset (run ++ rest) (Token.ofRun run label offset :: tokens)

section Procedure

variable {live live' : List Char → Prop} {labels labels' : List Char → Label → Prop}
  {offset : Nat} {run rest : List Char} {tokens : List Token}

theorem LongestRun.unique {text other : List Char} (h : LongestRun live run text)
    (h' : LongestRun live other text) : run = other := by
  have hle := h.longest other h'.starts h'.readable
  have hge := h'.longest run h.starts h.readable
  exact (List.prefix_of_prefix_length_le h.starts h'.starts hge).eq_of_length
    (Nat.le_antisymm hge hle)

/-- A run that can be read is the longest one if the character behind it makes it unreadable. -/
theorem longestRun_append_iff (hclosed : ∀ v w, live (v ++ w) → live v) :
    LongestRun live run (run ++ rest) ↔ live run ∧ ∀ c ∈ rest.head?, ¬ live (run ++ [c]) := by
  cases rest with
  | nil =>
    rw [List.append_nil]
    constructor
    · exact fun h => ⟨h.readable, nofun⟩
    · exact fun h => ⟨List.prefix_rfl, h.1, fun other hstarts _ => hstarts.length_le⟩
  | cons c rest =>
    have hstarts : run ++ [c] <+: run ++ c :: rest := ⟨rest, List.append_assoc run [c] rest⟩
    constructor
    · refine fun h => ⟨h.readable, fun d hd hlive => ?_⟩
      cases hd
      have hle := h.longest (run ++ [c]) hstarts hlive
      rw [List.length_append, List.length_singleton] at hle
      omega
    · rintro ⟨hlive, hdead⟩
      refine ⟨List.prefix_append _ _, hlive, fun other hother hread => ?_⟩
      by_contra hlonger
      -- A longer prefix extends the run by the character, so that could be read as well.
      have hext : run ++ [c] <+: other := by
        apply List.prefix_of_prefix_length_le hstarts hother
        rw [List.length_append, List.length_singleton]
        omega
      obtain ⟨w, rfl⟩ := hext
      exact hdead c rfl (hclosed _ w hread)

@[simp]
theorem munch_nil_iff : Munch live labels offset [] tokens ↔ tokens = [] := by
  constructor
  · intro h
    generalize htext : ([] : List Char) = text at h
    cases h with
    | done => rfl
    | token hne => exact absurd (List.append_eq_nil_iff.1 htext.symm).1 hne
  · rintro rfl
    exact .done offset

/-- The longest run of a text determines its first token. -/
theorem munch_iff_of_longest (hne : run ≠ []) (hlongest : LongestRun live run (run ++ rest)) :
    Munch live labels offset (run ++ rest) tokens ↔
      ∃ label tail, labels run label ∧
        Munch live labels (offset + Utf8.byteLength run) rest tail ∧
        tokens = Token.ofRun run label offset :: tail := by
  constructor
  · intro h
    generalize htext : run ++ rest = text at h
    cases h with
    | done => exact absurd (List.append_eq_nil_iff.1 htext).1 hne
    | @token _ other rest' label tail _ hother hlabel htail =>
      rw [htext] at hlongest
      obtain rfl := hlongest.unique hother
      obtain rfl := List.append_cancel_left htext
      exact ⟨label, tail, hlabel, htail, rfl⟩
  · rintro ⟨label, tail, hlabel, htail, rfl⟩
    exact .token hne hlongest hlabel htail

/-- Where the first character cannot be read, the procedure is stuck. -/
theorem not_munch_of_dead (hclosed : ∀ v w, live (v ++ w) → live v) {c : Char}
    (hdead : ¬ live [c]) : ¬ Munch live labels offset (c :: rest) tokens := by
  intro h
  generalize htext : c :: rest = text at h
  cases h with
  | done => cases htext
  | @token _ run rest' _ _ hne hlongest =>
    cases run with
    | nil => exact hne rfl
    | cons d run =>
      injection htext with hcd _
      subst hcd
      exact hdead (hclosed [c] run hlongest.readable)

/-- The procedure depends only on what can be read at all and on the labels of that. -/
theorem Munch.congr (hlive : ∀ w, w ≠ [] → (live w ↔ live' w))
    (hlabels : ∀ w label, w ≠ [] → (labels w label ↔ labels' w label)) {text : List Char}
    (h : Munch live labels offset text tokens) : Munch live' labels' offset text tokens := by
  induction h with
  | done offset => exact .done offset
  | token hne hlongest hlabel _ ih =>
    refine .token hne ⟨hlongest.starts, (hlive _ hne).1 hlongest.readable, ?_⟩
      ((hlabels _ _ hne).1 hlabel) ih
    intro other hstarts hother
    by_cases hnil : other = []
    · rw [hnil]
      exact Nat.zero_le _
    · exact hlongest.longest other hstarts ((hlive other hnil).2 hother)

/-- No token of the procedure is empty. -/
theorem Munch.content_ne_empty {text : List Char} (h : Munch live labels offset text tokens) :
    ∀ t ∈ tokens, t.content ≠ "" := by
  induction h with
  | done => exact fun t ht => absurd ht List.not_mem_nil
  | @token _ run _ _ _ hne _ _ _ ih =>
    intro t ht
    rcases List.mem_cons.1 ht with rfl | ht
    · intro hempty
      have hrun : run = "".toList := by
        rw [← hempty, Token.ofRun, String.toList_ofList]
      exact hne hrun
    · exact ih t ht

end Procedure

/-! ## 2. What the lexer holds -/

theorem ofList_push (cs : List Char) (c : Char) :
    (String.ofList cs).push c = String.ofList (cs ++ [c]) := by
  apply String.toList_inj.1
  rw [String.toList_push, String.toList_ofList, String.toList_ofList]

theorem utf8ByteSize_ofList (cs : List Char) :
    (String.ofList cs).utf8ByteSize = Utf8.byteLength cs := by
  induction cs using List.reverseRecOn with
  | nil => rfl
  | append_singleton cs c ih =>
    rw [← ofList_push, String.utf8ByteSize_push, ih, Utf8.byteLength_append]
    rfl

namespace Lexer

variable {A : Automaton}

def Live (A : Automaton) (w : List Char) : Prop := ∃ q, A.Path A.entry w q

def Reports (A : Automaton) (w : List Char) (label : Label) : Prop :=
  A.bestLabel (A.reached w) = some label

theorem Live.of_append {v w : List Char} (h : Live A (v ++ w)) : Live A v := by
  obtain ⟨q, path⟩ := h
  obtain ⟨t, hv, _⟩ := Automaton.path_append_iff.1 path
  exact ⟨t, hv⟩

theorem Live.longestRun {run rest : List Char} {c : Char} (h : Live A run)
    (hdead : ¬ Live A (run ++ [c])) : LongestRun (Live A) run (run ++ c :: rest) := by
  refine (longestRun_append_iff fun _ _ => Live.of_append).2 ⟨h, fun d hd => ?_⟩
  cases hd
  exact hdead

theorem longestRun_self {run : List Char} (h : Live A run) :
    LongestRun (Live A) run (run ++ []) :=
  (longestRun_append_iff fun _ _ => Live.of_append).2 ⟨h, nofun⟩

theorem isEmpty_stepOn_iff {w : List Char} {c : Char} :
    (A.stepOn c (A.reached w)).isEmpty = true ↔ ¬ Live A (w ++ [c]) := by
  rw [SortedSet.isEmpty_iff]
  have hreached : ∀ q, A.Path A.entry (w ++ [c]) q ↔
      ∃ p ∈ A.stepOn c (A.reached w), A.EpsilonPath p q := by
    intro q
    rw [← Automaton.mem_reached, Automaton.reached_append_singleton, Automaton.advance,
      Automaton.mem_epsilonClosure]
  constructor
  · rintro hempty ⟨q, path⟩
    obtain ⟨p, hp, _⟩ := (hreached q).1 path
    exact hempty p hp
  · intro hdead q hq
    exact hdead ⟨q, (hreached q).2 ⟨q, hq, .refl q⟩⟩

theorem not_reports_of_dead {w : List Char} {label : Label} (hdead : ¬ Live A w) :
    ¬ Reports A w label := by
  intro h
  obtain ⟨q, hq, _⟩ := Automaton.bestLabel_eq_some_iff.1 h
  exact hdead ⟨q, Automaton.mem_reached.1 hq⟩

theorem Reports.live {w : List Char} {label : Label} (h : Reports A w label) : Live A w := by
  by_contra hdead
  exact not_reports_of_dead hdead h

/-- A text has a label if and only if it leads to a final state. -/
theorem accepts_iff_reports {w : List Char} :
    A.accepts w = true ↔ ∃ label, Reports A w label := by
  unfold Reports
  rw [Automaton.accepts_iff_exists, ← Option.isSome_iff_exists, Automaton.bestLabel,
    List.findSome?_isSome_iff]
  simp only [Option.isSome_iff_exists]
  rfl

/-- The lexer has read `run` since the last token, which ended at an offset. -/
structure Holds (A : Automaton) (lx : Lexer) (offset : Nat) (run : List Char) : Prop where
  automaton : lx.automaton = A
  frontier : A.epsilonClosure lx.frontier = A.reached run
  buffer : lx.buffer = String.ofList run
  start : lx.start = offset

variable {lx : Lexer} {offset : Nat} {run rest : List Char} {tokens : List Token}

theorem Holds.pendingToken (h : Holds A lx offset run) (label : Label) :
    lx.pendingToken label = Token.ofRun run label offset := by
  rw [Lexer.pendingToken, h.buffer, h.start, utf8ByteSize_ofList]
  rfl

theorem holds_reset (lx : Lexer) : Holds lx.automaton lx.reset 0 [] := ⟨rfl, rfl, rfl, rfl⟩

/-! ## 3. One character -/

/-- A character that extends the run is kept. -/
theorem Holds.feed_extend (h : Holds A lx offset run) {c : Char} (hlive : Live A (run ++ [c])) :
    ∃ lx', lx.feed c = (.ok none, lx') ∧ Holds A lx' offset (run ++ [c]) := by
  have hnext : ¬ (A.stepOn c (A.reached run)).isEmpty = true :=
    fun hempty => isEmpty_stepOn_iff.1 hempty hlive
  have hfeed : lx.feed c = (.ok none,
      { lx with
        frontier := A.epsilonClosure (A.stepOn c (A.reached run))
        buffer := lx.buffer.push c }) := by
    unfold feed
    simp only [h.automaton, h.frontier]
    exact if_neg hnext
  refine ⟨_, hfeed, h.automaton, ?_, ?_, h.start⟩
  · rw [Automaton.epsilonClosure_idem, Automaton.reached_append_singleton, Automaton.advance]
  · rw [h.buffer, ofList_push]

/-- A character that does not extend the run ends it, and begins the next one. -/
theorem Holds.feed_emit (h : Holds A lx offset run) {c : Char} (hdead : ¬ Live A (run ++ [c]))
    {label : Label} (hlabel : Reports A run label) :
    ∃ lx', lx.feed c = (.ok (some (Token.ofRun run label offset)), lx') ∧
      Holds A lx' (offset + Utf8.byteLength run) [c] := by
  have hnext := isEmpty_stepOn_iff.2 hdead
  have hbest : A.bestLabel (A.reached run) = some label := hlabel
  have hfeed : lx.feed c = (.ok (some (Token.ofRun run label offset)),
      { lx.restart (A.advance A.start c) with buffer := "".push c }) := by
    unfold feed
    simp only [h.automaton, h.frontier, hbest, h.pendingToken]
    exact if_pos hnext
  refine ⟨_, hfeed, h.automaton, ?_, rfl, ?_⟩
  · exact Automaton.epsilonClosure_idem
  · simp only [restart, h.buffer, h.start, utf8ByteSize_ofList]

/-- A character that does not extend the run is refused if the run has no label. -/
theorem Holds.feed_refuse (h : Holds A lx offset run) {c : Char} (hdead : ¬ Live A (run ++ [c]))
    (hlabel : ∀ label, ¬ Reports A run label) :
    lx.feed c = (.error (lx.invalid (some c)), lx) := by
  have hnext := isEmpty_stepOn_iff.2 hdead
  have hnone := Option.eq_none_iff_forall_ne_some.2 hlabel
  unfold feed
  simp only [h.automaton, h.frontier, hnone]
  exact if_pos hnext

/-- What feeding a character can do: the run goes on, or it ends under its label, or it has none. -/
theorem Holds.feed_cases (h : Holds A lx offset run) (c : Char) :
    (Live A (run ++ [c]) ∧
      ∃ lx', lx.feed c = (.ok none, lx') ∧ Holds A lx' offset (run ++ [c])) ∨
    (¬ Live A (run ++ [c]) ∧ ∃ label lx', Reports A run label ∧
      lx.feed c = (.ok (some (Token.ofRun run label offset)), lx') ∧
      Holds A lx' (offset + Utf8.byteLength run) [c]) ∨
    (¬ Live A (run ++ [c]) ∧ (∀ label, ¬ Reports A run label) ∧
      lx.feed c = (.error (lx.invalid (some c)), lx)) := by
  by_cases hlive : Live A (run ++ [c])
  · exact .inl ⟨hlive, h.feed_extend hlive⟩
  · by_cases hlabel : ∃ label, Reports A run label
    · obtain ⟨label, hlabel⟩ := hlabel
      obtain ⟨lx', hfeed, hafter⟩ := h.feed_emit hlive hlabel
      exact .inr (.inl ⟨hlive, label, lx', hlabel, hfeed, hafter⟩)
    · have hnone : ∀ label, ¬ Reports A run label := fun label hl => hlabel ⟨label, hl⟩
      exact .inr (.inr ⟨hlive, hnone, h.feed_refuse hlive hnone⟩)

/-! ## 4. Whole inputs -/

theorem result_cons_eq_ok_iff {s : Scan} {t : Token} :
    (s.cons t).result = .ok tokens ↔ ∃ tail, s.result = .ok tail ∧ tokens = t :: tail := by
  unfold Scan.result Scan.cons
  cases s.failure with
  | none =>
    simp only [Except.ok.injEq]
    constructor
    · rintro rfl
      exact ⟨_, rfl, rfl⟩
    · rintro ⟨tail, rfl, rfl⟩
      rfl
  | some e => simp

theorem not_munch_of_not_live {c : Char} (hdead : ¬ Live A [c]) :
    ¬ Munch (Live A) (Reports A) offset (c :: rest) tokens :=
  not_munch_of_dead (fun _ _ => Live.of_append) hdead

/-- At the end of the input the run is the last token. -/
theorem Holds.scanFrom_nil_iff (h : Holds A lx offset run) (hne : run ≠ [])
    (hrun : Live A run ∨ ∃ c, run = [c]) :
    (lx.scanFrom true []).result = .ok tokens ↔
      Munch (Live A) (Reports A) offset (run ++ []) tokens := by
  by_cases hlive : Live A run
  · rw [munch_iff_of_longest hne (longestRun_self hlive)]
    simp only [scanFrom, flush, h.automaton, h.frontier, h.pendingToken, if_true]
    cases hlabel : A.bestLabel (A.reached run) with
    | none => simp [Scan.result, Reports, hlabel]
    | some label => simp [Scan.result, Reports, hlabel, eq_comm]
  · obtain ⟨c, rfl⟩ := hrun.resolve_left hlive
    have hnone : A.bestLabel (A.reached [c]) = none :=
      Option.eq_none_iff_forall_ne_some.2 fun label => not_reports_of_dead hlive
    simp only [scanFrom, flush, h.automaton, h.frontier, hnone, if_true]
    constructor
    · intro heq
      simp [Scan.result] at heq
    · exact fun hm => absurd hm (not_munch_of_not_live hlive)

/-- Reading on from a run that is not empty finishes the procedure.  Only a run of one character,
the one that ended the run before it, may turn out to be unreadable. -/
theorem Holds.scanFrom_iff (h : Holds A lx offset run) (hne : run ≠ [])
    (hrun : Live A run ∨ ∃ c, run = [c]) :
    (lx.scanFrom true rest).result = .ok tokens ↔
      Munch (Live A) (Reports A) offset (run ++ rest) tokens := by
  induction rest generalizing lx offset run tokens with
  | nil => exact h.scanFrom_nil_iff hne hrun
  | cons c rest ih =>
    rcases h.feed_cases c with ⟨hext, lx', hfeed, hholds⟩ |
      ⟨hext, label, lx', hlabel, hfeed, hholds⟩ | ⟨hext, hnone, hfeed⟩
    · -- The run goes on.
      simp only [scanFrom, hfeed]
      rw [ih hholds (by simp) (.inl hext), List.append_assoc, List.singleton_append]
    · -- The run is the longest one and becomes a token; the character begins the next run.
      simp only [scanFrom, hfeed]
      rw [result_cons_eq_ok_iff, munch_iff_of_longest hne (hlabel.live.longestRun hext)]
      constructor
      · rintro ⟨tail, htail, rfl⟩
        exact ⟨label, tail, hlabel, (ih hholds (by simp) (.inr ⟨c, rfl⟩)).1 htail, rfl⟩
      · rintro ⟨label', tail, hlabel', htail, rfl⟩
        obtain rfl : label = label' := Option.some.inj (hlabel.symm.trans hlabel')
        exact ⟨tail, (ih hholds (by simp) (.inr ⟨c, rfl⟩)).2 htail, rfl⟩
    · -- The run has no label, so both the lexer and the procedure give up.
      simp only [scanFrom, hfeed]
      constructor
      · intro heq
        simp [Scan.result] at heq
      · intro hm
        by_cases hlive : Live A run
        · obtain ⟨label, _, hl, _⟩ := (munch_iff_of_longest hne (hlive.longestRun hext)).1 hm
          exact absurd hl (hnone label)
        · obtain ⟨d, rfl⟩ := hrun.resolve_left hlive
          exact absurd hm (not_munch_of_not_live hlive)

/-- The lexer of an automaton follows the procedure: it gives the same tokens, and none where the
procedure is stuck. -/
theorem tokenize_ofAutomaton_iff (A : Automaton) (input : List Char) (tokens : List Token) :
    (ofAutomaton A).tokenize input = .ok tokens ↔
      Munch (Live A) (Reports A) 0 input tokens := by
  have hreset := holds_reset (ofAutomaton A)
  rw [tokenize, scan]
  cases input with
  | nil =>
    rw [munch_nil_iff]
    simp [scanFrom, Scan.result, eq_comm]
  | cons c rest =>
    -- A character that cannot be read may end an empty token, and stays unreadable after it.
    rcases hreset.feed_cases c with ⟨hlive, lx', hfeed, hholds⟩ |
      ⟨hdead, label, lx', _, hfeed, hholds⟩ | ⟨hdead, _, hfeed⟩
    · simp only [scanFrom, hfeed]
      exact hholds.scanFrom_iff (by simp) (.inl hlive)
    · refine ⟨fun heq => ?_, fun hm => absurd hm (not_munch_of_not_live hdead)⟩
      simp only [scanFrom, hfeed] at heq
      obtain ⟨tail, htail, _⟩ := result_cons_eq_ok_iff.1 heq
      have hm := (hholds.scanFrom_iff (by simp) (.inr ⟨c, rfl⟩)).1 htail
      exact absurd hm (not_munch_of_not_live hdead)
    · refine ⟨fun heq => ?_, fun hm => absurd hm (not_munch_of_not_live hdead)⟩
      simp [scanFrom, hfeed, Scan.result] at heq

end Lexer

end JsonAutomata
