import JsonAutomata.Proofs.Lexer.Streams

/-!
# Failures — where and why reading stops

An error may be answered long after its cause: a character that begins no token is kept at first,
since it ends the token in front of it, and is refused only with the next call.  Its place and its
pending text are right all the same (`Holds.scanFrom_stuck`).
-/

namespace JsonAutomata

namespace Lexer

variable {A : Automaton} {lx : Lexer} {offset : Nat} {run rest text : List Char}
  {tokens : List Token} {e : LexError} {c : Char}

/-- Behind the tokens of a text that begins at an offset, no label is reported for what is pending,
and nothing can be read with the character behind that, which `rest` begins with. -/
structure Stuck (A : Automaton) (offset : Nat) (text : List Char) (tokens : List Token)
    (rest : List Char) (e : LexError) : Prop where
  text_eq : text = contents tokens ++ e.pending.toList ++ rest
  offset_eq : e.offset = offset + Utf8.byteLength (contents tokens ++ e.pending.toList)
  found_eq : e.found = rest.head?
  unlabelled : ∀ q, A.Path A.entry e.pending.toList q → A.label? q = none
  dead : ∀ c ∈ e.found, ¬ Live A (e.pending.toList ++ [c])

theorem label?_eq_none_of_not_reports (h : ∀ label, ¬ Reports A run label) {q : State}
    (hq : A.Path A.entry run q) : A.label? q = none := by
  by_contra hsome
  have hfinal : A.accepts run = true := Automaton.accepts_iff_exists.2
    ⟨q, Automaton.mem_reached.2 hq, Option.ne_none_iff_exists'.1 hsome⟩
  rcases accepts_iff_reports.1 hfinal with ⟨label, hlabel⟩
  exact h label hlabel

theorem Holds.stuck (h : Holds A lx offset run) (hlabel : ∀ label, ¬ Reports A run label)
    (hdead : ∀ c ∈ rest.head?, ¬ Live A (run ++ [c])) :
    Stuck A offset (run ++ rest) [] rest (lx.invalid rest.head?) := by
  have hpending : (lx.invalid rest.head?).pending.toList = run := by
    show lx.buffer.toList = run
    rw [h.buffer, String.toList_ofList]
  refine ⟨?_, ?_, rfl, fun q hq => ?_, fun c hc => ?_⟩
  · rw [hpending]
    rfl
  · rw [hpending]
    show lx.start + lx.buffer.utf8ByteSize = offset + Utf8.byteLength run
    rw [h.start, h.buffer, utf8ByteSize_ofList]
  · rw [hpending] at hq
    exact label?_eq_none_of_not_reports hlabel hq
  · rw [hpending]
    exact hdead c hc

theorem Stuck.cons (label : Label)
    (h : Stuck A (offset + Utf8.byteLength run) text tokens rest e) :
    Stuck A offset (run ++ text) (Token.ofRun run label offset :: tokens) rest e := by
  have hcontents : contents (Token.ofRun run label offset :: tokens) = run ++ contents tokens := by
    show (String.ofList run).toList ++ contents tokens = _
    rw [String.toList_ofList]
  refine ⟨?_, ?_, h.found_eq, h.unlabelled, h.dead⟩
  · rw [hcontents, h.text_eq]
    simp only [List.append_assoc]
  · rw [hcontents, h.offset_eq, List.append_assoc, Utf8.byteLength_append run]
    omega

/-- A scan that fails is stuck where its error says. -/
theorem Holds.scanFrom_stuck (h : Holds A lx offset run) {fed : Bool}
    (he : (lx.scanFrom fed text).failure = some e) :
    ∃ rest, Stuck A offset (run ++ text) (lx.scanFrom fed text).tokens rest e := by
  induction text generalizing lx offset run fed with
  | nil =>
    cases fed with
    | false => cases he
    | true =>
      rcases h.flush_cases with ⟨label, lx', _, hflush, _⟩ | ⟨hnone, hflush⟩
      · rw [scanFrom, if_pos rfl, hflush] at he
        cases he
      · rw [scanFrom, if_pos rfl, hflush] at he ⊢
        cases he
        have hdead : ∀ c ∈ ([] : List Char).head?, ¬ Live A (run ++ [c]) := by
          intro c hc
          cases hc
        exact ⟨[], h.stuck hnone hdead⟩
  | cons c text ih =>
    rcases h.feed_cases c with ⟨_, lx', hfeed, hholds⟩ | ⟨_, label, lx', _, hfeed, hholds⟩ |
      ⟨hlive, hnone, hfeed⟩
    · rw [scanFrom, hfeed] at he ⊢
      have hrest := ih hholds he
      rwa [List.append_assoc, List.singleton_append] at hrest
    · -- The character ends the run, and may turn out to begin nothing only later.
      rw [scanFrom, hfeed] at he ⊢
      rcases ih hholds he with ⟨rest, hrest⟩
      exact ⟨rest, hrest.cons label⟩
    · rw [scanFrom, hfeed] at he ⊢
      cases he
      have hdead : ∀ d ∈ (c :: text).head?, ¬ Live A (run ++ [d]) := by
        intro d hd
        cases hd
        exact hlive
      exact ⟨c :: text, h.stuck hnone hdead⟩

theorem failure_of_tokenize {input : List Char} (h : lx.tokenize input = .error e) :
    (lx.scan input).failure = some e := by
  rw [tokenize, Scan.result] at h
  cases hfailure : (lx.scan input).failure with
  | none =>
    rw [hfailure] at h
    cases h
  | some cause =>
    rw [hfailure] at h
    cases h
    rfl

/-- A lexer error tells where reading stopped and why.  Its offset lies between two characters of the
input; it has found the character behind that, or the end of the input.  The tokens that the stream
of the input has given before it and what is pending are all the input in front of the offset.  No
state that is reached by what is pending has a label, and no state at all is reached by that and the
character. -/
theorem tokenize_error_locates (lx : Lexer) {input : List Char} {e : LexError}
    (h : lx.tokenize input = .error e) :
    ∃ tokens before rest, input = before ++ rest ∧ e.offset = Utf8.byteLength before ∧
      e.found = rest.head? ∧ (e.found = none ↔ e.offset = Utf8.byteLength input) ∧
      ((lx.stream input).take (tokens.length + 1)).1
        = tokens.map (fun t => some (.ok t)) ++ [some (.error e)] ∧
      contents tokens ++ e.pending.toList = before ∧
      (∀ q, lx.automaton.Path lx.automaton.entry e.pending.toList q →
        lx.automaton.label? q = none) ∧
      ∀ c, e.found = some c →
        ¬ ∃ q, lx.automaton.Path lx.automaton.entry (e.pending.toList ++ [c]) q := by
  have hfailure := failure_of_tokenize h
  rcases (holds_reset lx).scanFrom_stuck hfailure with ⟨rest, hstuck⟩
  have hoffset := hstuck.offset_eq
  rw [Nat.zero_add] at hoffset
  refine ⟨_, _, rest, hstuck.text_eq, hoffset, hstuck.found_eq, ?_, ?_, rfl, hstuck.unlabelled,
    hstuck.dead⟩
  · have htext : input = _ := hstuck.text_eq
    rw [htext, Utf8.byteLength_append _ rest, hoffset, hstuck.found_eq, List.head?_eq_none_iff,
      ← Utf8.byteLength_eq_zero_iff]
    exact ⟨fun hzero => by omega, fun hsum => by omega⟩
  · have htake := take_stream lx input
    rw [hfailure] at htake
    exact htake

/-- The mark ends a token and begins none, so it is pending when the letter behind it is refused. -/
theorem tokenize_error_locates_late :
    let lx := ofPatterns [.labeled "letter" (.literal ['é'])]
    let e : LexError := ⟨some 'é', "?", 3⟩
    lx.tokenize "é?é".toList = .error e ∧ ∃ tokens before rest, "é?é".toList = before ++ rest ∧
      3 = Utf8.byteLength before ∧ some 'é' = rest.head? ∧
      ((lx.stream "é?é".toList).take (tokens.length + 1)).1
        = tokens.map (fun t => some (.ok t)) ++ [some (.error e)] ∧
      contents tokens ++ "?".toList = before ∧
      ¬ ∃ q, lx.automaton.Path lx.automaton.entry ("?".toList ++ ['é']) q := by
  intro lx e
  have he : lx.tokenize "é?é".toList = .error e := by decide
  rcases tokenize_error_locates lx he with
    ⟨tokens, before, rest, hinput, hoffset, hfound, -, hstream, hcontents, -, hdead⟩
  exact ⟨he, tokens, before, rest, hinput, hoffset, hfound, hstream, hcontents, hdead 'é' rfl⟩

end Lexer

end JsonAutomata
