import JsonAutomata.Proofs.Lexer.Streams

/-!
# Laziness — how far a stream has read

A stream gives the items of the scan one after another (`TokenStream.take_scanFrom`), and reads no
more of its input than each of them takes: a token is given as soon as the character behind it is
known, and that character is all that is pending then.  The invariant is that a stream which has not
ended has read a front of its input, of which it has given back all but what is pending
(`TokenStream.Keeps`).
-/

namespace JsonAutomata

namespace TokenStream

variable {A : Automaton} {lx : Lexer} {offset : Nat} {run rest input : List Char} {fed : Bool}
  {s : TokenStream} {t : Token}

/-! ## 1. One pull -/

theorem take_succ_snd (count : Nat) (s : TokenStream) :
    (take (count + 1) s).2 = (take count s).2.next.2 := by
  induction count generalizing s with
  | zero => rfl
  | succ count ih =>
    show (take (count + 1) s.next.2).2 = (take count s.next.2).2.next.2
    exact ih s.next.2

theorem take_succ_fst (count : Nat) (s : TokenStream) :
    (take (count + 1) s).1 = (take count s).1 ++ [(take count s).2.next.1] := by
  induction count generalizing s with
  | zero => rfl
  | succ count ih =>
    show s.next.1 :: (take (count + 1) s.next.2).1
      = s.next.1 :: ((take count s.next.2).1 ++ [(take count s.next.2).2.next.1])
    rw [ih s.next.2]

/-- The stream goes on after tokens only. -/
theorem exists_token_of_pull (h : (pull lx fed rest).2.finished = false) :
    ∃ t, (pull lx fed rest).1 = some (.ok t) := by
  induction rest generalizing lx fed with
  | nil => cases fed <;> cases h
  | cons c rest ih =>
    rcases hfeed : lx.feed c with ⟨answer, lx'⟩
    rw [pull, hfeed] at h ⊢
    cases answer with
    | ok token =>
      cases token with
      | none => exact ih h
      | some t => exact ⟨t, rfl⟩
    | error e => cases h

/-- A token is given at the end of the input, or when the character behind it has been read. -/
theorem pull_token (h : Lexer.Holds A lx offset run) (ht : (pull lx fed rest).1 = some (.ok t)) :
    ((pull lx fed rest).2.finished = true ∧
        t.span.stop = offset + Utf8.byteLength (run ++ rest)) ∨
      ∃ read c, rest = read ++ c :: (pull lx fed rest).2.rest ∧
        t.span.stop = offset + Utf8.byteLength (run ++ read) ∧
        Lexer.Holds A (pull lx fed rest).2.lexer t.span.stop [c] := by
  induction rest generalizing lx fed run with
  | nil =>
    left
    cases fed with
    | false => cases ht
    | true =>
      have hflush : some lx.flush.1 = some (.ok t) := ht
      rcases h.flush_cases with ⟨label, lx', _, hgiven, _⟩ | ⟨_, hrefused⟩
      · rw [hgiven] at hflush
        cases hflush
        refine ⟨rfl, ?_⟩
        rw [List.append_nil]
        rfl
      · rw [hrefused] at hflush
        cases hflush
  | cons c rest ih =>
    rcases h.feed_cases c with ⟨_, lx', hkept, hholds⟩ | ⟨_, label, lx', _, hgiven, hholds⟩ |
      ⟨_, _, hrefused⟩
    · -- The character belongs to what the pulls after it give back.
      rw [pull, hkept] at ht ⊢
      have hcons : ∀ w, run ++ [c] ++ w = run ++ c :: w := fun w => List.append_assoc run [c] w
      rcases ih hholds ht with ⟨hfinished, hstop⟩ | ⟨read, d, hread, hstop, hafter⟩
      · left
        rw [hcons] at hstop
        exact ⟨hfinished, hstop⟩
      · right
        rw [hcons] at hstop
        exact ⟨c :: read, d, congrArg (List.cons c) hread, hstop, hafter⟩
    · rw [pull, hgiven] at ht ⊢
      cases ht
      right
      refine ⟨[], c, rfl, ?_, hholds⟩
      rw [List.append_nil]
      rfl
    · rw [pull, hrefused] at ht
      cases ht

/-! ## 2. Any number of pulls -/

/-- As long as the stream goes on, what it has read are the characters that it has given back and
those that are pending. -/
def Keeps (A : Automaton) (input : List Char) (s : TokenStream) : Prop :=
  s.finished = false → ∃ before run, input = before ++ (run ++ s.rest) ∧
    Lexer.Holds A s.lexer (Utf8.byteLength before) run

theorem keeps_stream (lx : Lexer) (input : List Char) :
    Keeps lx.automaton input (lx.stream input) := by
  intro _
  exact ⟨[], [], rfl, Lexer.holds_reset lx⟩

theorem next_of_not_finished (h : s.finished = false) : s.next = pull s.lexer s.fed s.rest := by
  unfold next
  rw [h]
  rfl

/-- What is pending behind a token that does not end the input is the next character. -/
theorem Keeps.exists_of_token (h : Keeps A input s) (ht : s.next.1 = some (.ok t)) :
    (s.next.2.finished = true ∧ t.span.stop = Utf8.byteLength input) ∨
      ∃ before c, input = before ++ c :: s.next.2.rest ∧ t.span.stop = Utf8.byteLength before ∧
        Lexer.Holds A s.next.2.lexer t.span.stop [c] := by
  cases hfinished : s.finished with
  | true =>
    unfold next at ht
    rw [hfinished] at ht
    cases ht
  | false =>
    obtain ⟨before, run, hinput, hholds⟩ := h hfinished
    rw [next_of_not_finished hfinished] at ht ⊢
    rcases pull_token hholds ht with ⟨hended, hstop⟩ | ⟨read, c, hread, hstop, hafter⟩
    · left
      refine ⟨hended, ?_⟩
      rw [hstop, hinput, ← Utf8.byteLength_append]
    · right
      refine ⟨before ++ (run ++ read), c, ?_, ?_, hafter⟩
      · rw [List.append_assoc, List.append_assoc, ← hread]
        exact hinput
      · rw [hstop, ← Utf8.byteLength_append]

theorem Keeps.next (h : Keeps A input s) : Keeps A input s.next.2 := by
  intro hgoing
  have htoken : ∃ t, s.next.1 = some (.ok t) := by
    cases hfinished : s.finished with
    | true =>
      unfold TokenStream.next at hgoing
      rw [hfinished] at hgoing
      exact absurd (hfinished.symm.trans hgoing) Bool.noConfusion
    | false =>
      rw [next_of_not_finished hfinished] at hgoing ⊢
      exact exists_token_of_pull hgoing
  obtain ⟨t, ht⟩ := htoken
  rcases h.exists_of_token ht with ⟨hended, _⟩ | ⟨before, c, hinput, hstop, hholds⟩
  · exact absurd (hended.symm.trans hgoing) Bool.noConfusion
  · rw [hstop] at hholds
    exact ⟨before, [c], hinput, hholds⟩

theorem Keeps.take (h : Keeps A input s) (count : Nat) : Keeps A input (s.take count).2 := by
  induction count with
  | zero => exact h
  | succ count ih =>
    rw [take_succ_snd]
    exact ih.next

end TokenStream

namespace Lexer

/-- The answers of a stream are the first ones of a sequence of tokens, an error or none, and then
nothing.  Reading the whole input gives these tokens, or this error.  A stream that has given a token
in front of the end of its input has read one character more, and that is all that is pending. -/
theorem stream_lazy (lx : Lexer) (input : List Char) :
    ∃ (tokens : List Token) (failure : Option LexError),
      (∀ count, ((lx.stream input).take count).1 = (List.range count).map fun n =>
        (tokens.map Except.ok ++ (failure.map Except.error).toList)[n]?) ∧
      (lx.tokenize input = .ok tokens ↔ failure = none) ∧
      (∀ e, failure = some e → lx.tokenize input = .error e) ∧
      ∀ n t, tokens[n]? = some t → t.span.stop < Utf8.byteLength input →
        ∃ before c, input = before ++ c :: ((lx.stream input).take (n + 1)).2.rest ∧
          Utf8.byteLength before = t.span.stop ∧
          ((lx.stream input).take (n + 1)).2.lexer.pending.toList = [c] := by
  have hanswers : ∀ count, ((lx.stream input).take count).1
      = (List.range count).map fun n => (lx.scan input).items[n]? :=
    TokenStream.take_scanFrom lx.reset false input
  refine ⟨(lx.scan input).tokens, (lx.scan input).failure, hanswers, ?_, ?_, ?_⟩
  · rw [tokenize, Scan.result]
    cases (lx.scan input).failure with
    | none => exact ⟨fun _ => rfl, fun _ => rfl⟩
    | some e =>
      constructor
      · intro h
        cases h
      · intro h
        cases h
  · intro e he
    rw [tokenize, Scan.result, he]
  · intro n t ht hstop
    have hitem : (lx.scan input).items[n]? = some (.ok t) := Scan.getElem?_items ht
    have hnext : ((lx.stream input).take n).2.next.1 = some (.ok t) := by
      have hmore := hanswers (n + 1)
      rw [TokenStream.take_succ_fst, List.range_succ, List.map_append, hanswers n] at hmore
      have hlast := List.append_cancel_left hmore
      exact (List.singleton_inj.1 hlast).trans hitem
    have hkeeps := (TokenStream.keeps_stream lx input).take n
    rw [TokenStream.take_succ_snd]
    rcases hkeeps.exists_of_token hnext with ⟨_, hend⟩ | ⟨before, c, hinput, hplace, hholds⟩
    · omega
    · refine ⟨before, c, hinput, hplace.symm, ?_⟩
      show (TokenStream.next _).2.lexer.buffer.toList = [c]
      rw [hholds.buffer, String.toList_ofList]

end Lexer

end JsonAutomata
