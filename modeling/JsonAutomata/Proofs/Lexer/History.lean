import JsonAutomata.Proofs.Lexer.Session

/-!
# Histories — what a lexer remembers

Streams and whole inputs are made of single calls, so whatever was done with a lexer and its copies,
some calls lead to the same state (`reaches_of_mem`), and all that a reset keeps of it is the
automaton.  A flush keeps one thing more, the offset: two lexers that differ in nothing else answer
alike, except that spans and error offsets differ by as much (`Session.call_ahead`).
-/

namespace JsonAutomata

/-! ## 1. Answers further on in the input -/

def Token.shift (n : Nat) (t : Token) : Token := { t with span := t.span.shift n }

def LexError.shift (n : Nat) (e : LexError) : LexError := { e with offset := e.offset + n }

namespace Lexer

def Event.shift (n : Nat) : Event → Event
  | fed c (.ok token) => fed c (.ok (token.map (Token.shift n)))
  | fed c (.error e) => fed c (.error (e.shift n))
  | flushed (.ok token) => flushed (.ok (token.shift n))
  | flushed (.error e) => flushed (.error (e.shift n))
  | reset => reset

def ahead (n : Nat) (lx : Lexer) : Lexer := { lx with start := lx.start + n }

def Session.ahead (n : Nat) (s : Session) : Session :=
  ⟨s.lexer.ahead n, s.events.map (Event.shift n)⟩

variable {lx lx' after : Lexer} {n : Nat} {c : Call}

theorem invalid_ahead (found : Option Char) :
    (lx.ahead n).invalid found = (lx.invalid found).shift n := by
  show LexError.mk found lx.buffer (lx.start + n + lx.buffer.utf8ByteSize)
    = ⟨found, lx.buffer, lx.start + lx.buffer.utf8ByteSize + n⟩
  rw [Nat.add_right_comm]

theorem pendingToken_ahead (label : Label) :
    (lx.ahead n).pendingToken label = (lx.pendingToken label).shift n := by
  show Token.mk lx.buffer label ⟨lx.start + n, lx.start + n + lx.buffer.utf8ByteSize⟩
    = ⟨lx.buffer, label, ⟨lx.start + n, lx.start + lx.buffer.utf8ByteSize + n⟩⟩
  rw [Nat.add_right_comm]

theorem restart_ahead (frontier : StateSet) :
    (lx.ahead n).restart frontier = (lx.restart frontier).ahead n := by
  show Lexer.mk lx.automaton frontier "" (lx.start + n + lx.buffer.utf8ByteSize)
    = ⟨lx.automaton, frontier, "", lx.start + lx.buffer.utf8ByteSize + n⟩
  rw [Nat.add_right_comm]

theorem answer_feed_ahead (c : Char) : (lx.ahead n).answer (.feed c)
    = ((lx.answer (.feed c)).1.shift n, (lx.answer (.feed c)).2.ahead n) := by
  have hautomaton : (lx.ahead n).automaton = lx.automaton := rfl
  have hfrontier : (lx.ahead n).frontier = lx.frontier := rfl
  unfold answer feed
  dsimp only
  rw [hautomaton, hfrontier]
  split
  · cases lx.automaton.bestLabel (lx.automaton.epsilonClosure lx.frontier) with
    | none =>
      dsimp only
      rw [invalid_ahead]
      rfl
    | some label =>
      dsimp only
      rw [pendingToken_ahead, restart_ahead]
      rfl
  · rfl

theorem answer_flush_ahead : (lx.ahead n).answer .flush
    = ((lx.answer .flush).1.shift n, (lx.answer .flush).2.ahead n) := by
  have hautomaton : (lx.ahead n).automaton = lx.automaton := rfl
  have hfrontier : (lx.ahead n).frontier = lx.frontier := rfl
  unfold answer flush
  dsimp only
  rw [hautomaton, hfrontier]
  cases lx.automaton.bestLabel (lx.automaton.epsilonClosure lx.frontier) with
  | none =>
    dsimp only
    rw [invalid_ahead]
    rfl
  | some label =>
    dsimp only
    rw [pendingToken_ahead, restart_ahead]
    rfl

/-- Only a reset sees how far a lexer is. -/
theorem Session.call_ahead {s : Session} (hc : c ≠ .reset) :
    (s.ahead n).call c = (s.call c).ahead n := by
  have hanswer : (s.lexer.ahead n).answer c
      = ((s.lexer.answer c).1.shift n, (s.lexer.answer c).2.ahead n) := by
    cases c with
    | feed c => exact answer_feed_ahead c
    | flush => exact answer_flush_ahead
    | reset => exact absurd rfl hc
  unfold Session.call Session.ahead
  dsimp only
  rw [hanswer, List.map_append]
  rfl

theorem session_ahead {calls : List Call} (hcalls : ¬ .reset ∈ calls) :
    (lx.ahead n).session calls = (lx.session calls).ahead n := by
  have hfoldl : ∀ s : Session,
      calls.foldl Session.call (s.ahead n) = (calls.foldl Session.call s).ahead n := by
    induction calls with
    | nil => exact fun _ => rfl
    | cons c calls ih =>
      intro s
      have hc : c ≠ .reset := fun heq => hcalls (List.mem_cons.2 (.inl heq.symm))
      rw [List.foldl_cons, Session.call_ahead hc, List.foldl_cons]
      exact ih (fun hmem => hcalls (List.mem_cons_of_mem c hmem)) (s.call c)
  exact hfoldl ⟨lx, []⟩

theorem flush_eq_ahead {token : Token} (h : lx.flush = (.ok token, after)) :
    after = (ofAutomaton lx.automaton).ahead (lx.start + lx.buffer.utf8ByteSize) := by
  unfold flush at h
  cases hbest : lx.automaton.bestLabel (lx.automaton.epsilonClosure lx.frontier) with
  | none =>
    rw [hbest] at h
    cases h
  | some label =>
    rw [hbest] at h
    cases h
    show Lexer.mk _ _ _ _ = Lexer.mk _ _ _ (0 + _)
    rw [Nat.zero_add]
    rfl

/-- The buffer ends where the characters that were taken end. -/
theorem byteLength_taken (A : Automaton) (calls : List Call) :
    let s := (ofAutomaton A).session calls
    s.lexer.start + s.lexer.buffer.utf8ByteSize = Utf8.byteLength (taken s.events) := by
  intro s
  rcases exists_accounts A calls with ⟨offset, run, h⟩
  have hspans := h.spans.byteLength
  rw [← h.text, Utf8.byteLength_append, h.holds.start, h.holds.buffer, utf8ByteSize_ofList]
  omega

/-- After a flush that succeeds a lexer answers like a new one, at the offset of what was taken. -/
theorem events_after_flush (A : Automaton) (calls : List Call) {token : Token}
    (h : ((ofAutomaton A).session calls).lexer.flush = (.ok token, after)) {more : List Call}
    (hmore : ¬ .reset ∈ more) :
    (after.session more).events = ((ofAutomaton A).session more).events.map
      (Event.shift (Utf8.byteLength (taken ((ofAutomaton A).session calls).events))) := by
  rcases exists_accounts A calls with ⟨offset, run, hs⟩
  have hafter := flush_eq_ahead h
  rw [hs.holds.automaton, byteLength_taken A calls] at hafter
  rw [hafter, session_ahead hmore]
  rfl

/-! ## 2. Streams and whole inputs as calls -/

/-- Some calls lead from one lexer to the other. -/
def Reaches (lx lx' : Lexer) : Prop := ∃ calls, (lx.session calls).lexer = lx'

-- What was recorded before plays no part in what a call does.
theorem lexer_foldl_call (calls : List Call) (s : Session) :
    (calls.foldl Session.call s).lexer = (s.lexer.session calls).lexer := by
  induction calls generalizing s with
  | nil => rfl
  | cons c calls ih =>
    unfold session
    rw [List.foldl_cons, List.foldl_cons, ih (s.call c), ih (Session.call ⟨s.lexer, []⟩ c)]
    rfl

theorem Reaches.refl (lx : Lexer) : Reaches lx lx := ⟨[], rfl⟩

theorem Reaches.answer (lx : Lexer) (c : Call) : Reaches lx (lx.answer c).2 := ⟨[c], rfl⟩

theorem Reaches.trans (h : Reaches lx lx') (h' : Reaches lx' after) : Reaches lx after := by
  rcases h with ⟨calls, rfl⟩
  rcases h' with ⟨more, rfl⟩
  refine ⟨calls ++ more, ?_⟩
  rw [session, List.foldl_append, lexer_foldl_call]
  rfl

theorem Reaches.feed {c : Char} {r : Except LexError (Option Token)} (h : lx.feed c = (r, lx')) :
    Reaches lx lx' := by
  have hstep := Reaches.answer lx (.feed c)
  rw [Lexer.answer, h] at hstep
  exact hstep

theorem Reaches.flush {r : Except LexError Token} (h : lx.flush = (r, lx')) : Reaches lx lx' := by
  have hstep := Reaches.answer lx .flush
  rw [Lexer.answer, h] at hstep
  exact hstep

theorem reaches_pull (lx : Lexer) (fed : Bool) (rest : List Char) :
    Reaches lx (TokenStream.pull lx fed rest).2.lexer := by
  induction rest generalizing lx fed with
  | nil =>
    cases fed with
    | true => exact .flush rfl
    | false => exact .refl lx
  | cons c rest ih =>
    rw [TokenStream.pull]
    split
    · rename_i hfeed
      exact (Reaches.feed hfeed).trans (ih _ _)
    · rename_i hfeed
      exact .feed hfeed
    · rename_i hfeed
      exact .feed hfeed

theorem reaches_take (count : Nat) (s : TokenStream) :
    Reaches s.lexer (TokenStream.take count s).2.lexer := by
  induction count generalizing s with
  | zero => exact .refl s.lexer
  | succ count ih =>
    have hnext : Reaches s.lexer s.next.2.lexer := by
      unfold TokenStream.next
      split
      · exact .refl s.lexer
      · exact reaches_pull s.lexer s.fed s.rest
    exact hnext.trans (ih s.next.2)

theorem reaches_scanFrom (lx : Lexer) (fed : Bool) (input : List Char) :
    Reaches lx (lx.scanFrom fed input).lexer := by
  induction input generalizing lx fed with
  | nil =>
    rw [scanFrom]
    split
    · split
      · rename_i hflush
        exact .flush hflush
      · rename_i hflush
        exact .flush hflush
    · exact .refl lx
  | cons c rest ih =>
    rw [scanFrom]
    split
    · rename_i hfeed
      exact (Reaches.feed hfeed).trans (ih _ _)
    · rename_i hfeed
      exact (Reaches.feed hfeed).trans (ih _ _)
    · rename_i hfeed
      exact .feed hfeed

theorem automaton_answer (lx : Lexer) (c : Call) : (lx.answer c).2.automaton = lx.automaton := by
  cases c with
  | feed c =>
    unfold answer feed
    dsimp only
    split
    · split <;> rfl
    · rfl
  | flush =>
    unfold answer flush
    dsimp only
    split <;> rfl
  | reset => rfl

theorem Reaches.automaton (h : Reaches lx lx') : lx'.automaton = lx.automaton := by
  rcases h with ⟨calls, rfl⟩
  induction calls using List.reverseRecOn with
  | nil => rfl
  | append_singleton calls c ih =>
    rw [session, List.foldl_append]
    exact (automaton_answer (lx.session calls).lexer c).trans ih

/-- A reset leaves nothing of what was done before. -/
theorem Reaches.reset (h : Reaches lx lx') : lx'.reset = lx.reset := by
  unfold Lexer.reset
  rw [h.automaton]

/-! ## 3. Lexers and their copies -/

/-- What may be done with a lexer: a call, reading a whole input, or taking so many answers from the
stream of an input that is then left as it is. -/
inductive Use where
  | call (c : Call)
  | tokenize (input : List Char)
  | stream (input : List Char) (count : Nat)

def use (lx : Lexer) : Use → Lexer
  | .call c => (lx.answer c).2
  | .tokenize input => (lx.scan input).lexer
  | .stream input count => ((lx.stream input).take count).2.lexer

/-- What may be done with some lexers: a use of one of them, or a copy of one of them. -/
inductive Action where
  | use (place : Nat) (u : Use)
  | clone (place : Nat)

/-- The lexers after an action; a copy comes last. -/
def act (lexers : List Lexer) : Action → List Lexer
  | .use place u =>
    match lexers[place]? with
    | some lx => lexers.set place (lx.use u)
    | none => lexers
  | .clone place => lexers ++ lexers[place]?.toList

theorem reaches_use (lx : Lexer) (u : Use) : Reaches lx (lx.use u) := by
  have hreset : Reaches lx lx.reset := .answer lx .reset
  cases u with
  | call c => exact .answer lx c
  | tokenize input => exact hreset.trans (reaches_scanFrom lx.reset false input)
  | stream input count => exact hreset.trans (reaches_take count (lx.stream input))

theorem reaches_of_mem_act {lexers : List Lexer} (h : ∀ other ∈ lexers, Reaches lx other)
    {a : Action} {other : Lexer} (hother : other ∈ act lexers a) : Reaches lx other := by
  cases a with
  | use place u =>
    rw [act] at hother
    split at hother
    · rename_i used hplace
      rcases List.mem_or_eq_of_mem_set hother with hmem | rfl
      · exact h other hmem
      · exact (h used (List.mem_of_getElem? hplace)).trans (reaches_use used u)
    · exact h other hother
  | clone place =>
    rcases List.mem_append.1 hother with hmem | hmem
    · exact h other hmem
    · exact h other (List.mem_of_getElem? (Option.mem_toList.1 hmem))

/-- Every lexer that comes of uses and copies of one lexer is reached by calls. -/
theorem reaches_of_mem {actions : List Action} {other : Lexer}
    (hother : other ∈ actions.foldl act [lx]) : Reaches lx other := by
  have hfoldl : ∀ (actions : List Action) (lexers : List Lexer),
      (∀ other ∈ lexers, Reaches lx other) →
        ∀ other ∈ actions.foldl act lexers, Reaches lx other := by
    intro actions
    induction actions with
    | nil => exact fun _ h => h
    | cons a actions ih => exact fun lexers h => ih (act lexers a) fun _ => reaches_of_mem_act h
  apply hfoldl actions [lx] _ other hother
  intro other hmem
  rw [List.mem_singleton.1 hmem]
  exact .refl lx

end Lexer

end JsonAutomata
