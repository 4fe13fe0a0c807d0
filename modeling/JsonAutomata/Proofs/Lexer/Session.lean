import JsonAutomata.Proofs.Lexer.Munch
import Mathlib.Data.List.DropRight

/-!
# Sessions — a lexer through any sequence of calls

A session is a lexer with the calls that were made of it and what they answered, failed calls
included.  What the answers say is enough to account for the lexer: which characters it has taken,
which tokens it has given for them, and what is left in its buffer (`Session.Accounts`).  Every call
keeps the account, so no order of calls loses a character or counts one twice.
-/

namespace JsonAutomata

namespace Lexer

/-! ## 1. Calls and events -/

inductive Call where
  | feed (c : Char)
  | flush
  | reset
  deriving DecidableEq

inductive Event where
  | fed (c : Char) (answer : Except LexError (Option Token))
  | flushed (answer : Except LexError Token)
  | reset

namespace Event

def token? : Event → Option Token
  | fed _ (.ok token) => token
  | flushed (.ok token) => some token
  | _ => none

def taken? : Event → Option Char
  | fed c (.ok _) => some c
  | _ => none

def isReset : Event → Bool
  | reset => true
  | _ => false

end Event

/-- The events of the input that is being read. -/
def sinceReset (events : List Event) : List Event := events.rtakeWhile fun e => !e.isReset

def emitted (events : List Event) : List Token := (sinceReset events).filterMap Event.token?

def taken (events : List Event) : List Char := (sinceReset events).filterMap Event.taken?

/-- A lexer with the calls that were made of it, in order. -/
structure Session where
  lexer : Lexer
  events : List Event

def answer (lx : Lexer) : Call → Event × Lexer
  | .feed c => (.fed c (lx.feed c).1, (lx.feed c).2)
  | .flush => (.flushed lx.flush.1, lx.flush.2)
  | .reset => (.reset, lx.reset)

def Session.call (s : Session) (c : Call) : Session :=
  ⟨(s.lexer.answer c).2, s.events ++ [(s.lexer.answer c).1]⟩

def session (lx : Lexer) (calls : List Call) : Session := calls.foldl Session.call ⟨lx, []⟩

section Events

variable {events : List Event} {e : Event}

theorem emitted_append (h : e.isReset = false) :
    emitted (events ++ [e]) = emitted events ++ e.token?.toList := by
  unfold emitted sinceReset
  rw [List.rtakeWhile_concat, h, Bool.not_false, if_pos rfl, List.filterMap_append]
  cases htoken : e.token? with
  | none => rw [List.filterMap_cons_none htoken]; rfl
  | some t => rw [List.filterMap_cons_some htoken]; rfl

theorem taken_append (h : e.isReset = false) :
    taken (events ++ [e]) = taken events ++ e.taken?.toList := by
  unfold taken sinceReset
  rw [List.rtakeWhile_concat, h, Bool.not_false, if_pos rfl, List.filterMap_append]
  cases htaken : e.taken? with
  | none => rw [List.filterMap_cons_none htaken]; rfl
  | some c => rw [List.filterMap_cons_some htaken]; rfl

theorem sinceReset_append_reset : sinceReset (events ++ [.reset]) = [] := by
  unfold sinceReset
  rw [List.rtakeWhile_concat]
  rfl

end Events

/-! ## 2. Tokens side by side -/

def contents (tokens : List Token) : List Char := tokens.flatMap fun t => t.content.toList

/-- The spans of the tokens fill the range without gaps or overlaps, each as long as the UTF-8 of its
content. -/
def Tile : Nat → List Token → Nat → Prop
  | start, [], stop => start = stop
  | start, t :: ts, stop =>
    t.span.start = start ∧ t.span.stop = start + t.content.utf8ByteSize ∧ Tile t.span.stop ts stop

theorem contents_append (ts us : List Token) : contents (ts ++ us) = contents ts ++ contents us :=
  List.flatMap_append

theorem contents_ofRun (run : List Char) (label : Label) (offset : Nat) :
    contents [Token.ofRun run label offset] = run := by
  show (String.ofList run).toList ++ [] = run
  rw [List.append_nil, String.toList_ofList]

theorem Tile.append {start middle stop : Nat} {ts us : List Token} (h : Tile start ts middle)
    (h' : Tile middle us stop) : Tile start (ts ++ us) stop := by
  induction ts generalizing start with
  | nil =>
    have hstart : start = middle := h
    rw [hstart]
    exact h'
  | cons t ts ih => exact ⟨h.1, h.2.1, ih h.2.2⟩

theorem tile_ofRun (run : List Char) (label : Label) (offset : Nat) :
    Tile offset [Token.ofRun run label offset] (offset + Utf8.byteLength run) := by
  refine ⟨rfl, ?_, rfl⟩
  show offset + Utf8.byteLength run = offset + (String.ofList run).utf8ByteSize
  rw [utf8ByteSize_ofList]

theorem Tile.byteLength {start stop : Nat} {ts : List Token} (h : Tile start ts stop) :
    start + Utf8.byteLength (contents ts) = stop := by
  induction ts generalizing start with
  | nil => exact h
  | cons t ts ih =>
    have hrest := ih h.2.2
    have hsize := utf8ByteSize_ofList t.content.toList
    rw [String.ofList_toList] at hsize
    rw [h.2.1] at hrest
    show start + Utf8.byteLength (t.content.toList ++ contents ts) = stop
    rw [Utf8.byteLength_append]
    omega

/-! ## 3. One call -/

variable {A : Automaton} {lx : Lexer} {offset : Nat} {run : List Char}

theorem Holds.flush_emit (h : Holds A lx offset run) {label : Label} (hlabel : Reports A run label) :
    ∃ lx', lx.flush = (.ok (Token.ofRun run label offset), lx') ∧
      Holds A lx' (offset + Utf8.byteLength run) [] := by
  have hbest : A.bestLabel (A.reached run) = some label := hlabel
  have hflush : lx.flush = (.ok (Token.ofRun run label offset), lx.restart (.singleton A.entry)) := by
    unfold flush
    simp only [h.automaton, h.frontier, hbest, h.pendingToken]
  refine ⟨_, hflush, h.automaton, rfl, rfl, ?_⟩
  show lx.start + lx.buffer.utf8ByteSize = offset + Utf8.byteLength run
  rw [h.buffer, h.start, utf8ByteSize_ofList]

theorem Holds.flush_refuse (h : Holds A lx offset run) (hlabel : ∀ label, ¬ Reports A run label) :
    lx.flush = (.error (lx.invalid none), lx) := by
  have hnone := Option.eq_none_iff_forall_ne_some.2 hlabel
  unfold flush
  simp only [h.automaton, h.frontier, hnone]

/-- What a flush can do: the run ends under its label, or it has none. -/
theorem Holds.flush_cases (h : Holds A lx offset run) :
    (∃ label lx', Reports A run label ∧ lx.flush = (.ok (Token.ofRun run label offset), lx') ∧
      Holds A lx' (offset + Utf8.byteLength run) []) ∨
    ((∀ label, ¬ Reports A run label) ∧ lx.flush = (.error (lx.invalid none), lx)) := by
  by_cases hlabel : ∃ label, Reports A run label
  · obtain ⟨label, hlabel⟩ := hlabel
    obtain ⟨lx', hflush, hafter⟩ := h.flush_emit hlabel
    exact .inl ⟨label, lx', hlabel, hflush, hafter⟩
  · have hnone : ∀ label, ¬ Reports A run label := fun label hl => hlabel ⟨label, hl⟩
    exact .inr ⟨hnone, h.flush_refuse hnone⟩

-- The next two hold of every lexer: an error is answered before anything is changed.
theorem feed_eq_self_of_error {c : Char} {e : LexError} (h : (lx.feed c).1 = .error e) :
    (lx.feed c).2 = lx := by
  unfold feed at h ⊢
  dsimp only at h ⊢
  split
  · rename_i hdead
    rw [if_pos hdead] at h
    cases hbest : lx.automaton.bestLabel (lx.automaton.epsilonClosure lx.frontier) with
    | none => rfl
    | some label =>
      rw [hbest] at h
      cases h
  · rename_i hlive
    rw [if_neg hlive] at h
    cases h

theorem flush_eq_self_of_error {e : LexError} (h : lx.flush.1 = .error e) : lx.flush.2 = lx := by
  unfold flush at h ⊢
  cases hbest : lx.automaton.bestLabel (lx.automaton.epsilonClosure lx.frontier) with
  | none => rfl
  | some label =>
    rw [hbest] at h
    cases h

/-! ## 4. Whole sessions -/

/-- The lexer is where the answers say: up to `offset` what was taken was given back in tokens, and
`run` is what was taken after that. -/
structure Session.Accounts (A : Automaton) (s : Session) (offset : Nat) (run : List Char) :
    Prop where
  holds : Holds A s.lexer offset run
  text : contents (emitted s.events) ++ run = taken s.events
  spans : Tile 0 (emitted s.events) offset

namespace Session

variable {s : Session} {offset' : Nat} {run' : List Char}

theorem accounts_reset (h : Holds A s.lexer offset run) : (s.call .reset).Accounts A 0 [] := by
  have hevents : sinceReset (s.call .reset).events = [] := sinceReset_append_reset
  refine ⟨?_, ?_, ?_⟩
  · rw [← h.automaton]
    exact holds_reset s.lexer
  · unfold emitted taken
    rw [hevents]
    rfl
  · unfold emitted
    rw [hevents]
    rfl

-- One call gives at most one token and takes at most one character; both sides of the account move
-- by the same amount.
theorem Accounts.call (h : s.Accounts A offset run) {c : Call} {e : Event} {lx : Lexer}
    (hanswer : s.lexer.answer c = (e, lx)) (hreset : e.isReset = false)
    (hholds : Holds A lx offset' run')
    (htext : contents e.token?.toList ++ run' = run ++ e.taken?.toList)
    (hspans : Tile offset e.token?.toList offset') : (s.call c).Accounts A offset' run' := by
  have hcall : s.call c = ⟨lx, s.events ++ [e]⟩ := by
    unfold Session.call
    rw [hanswer]
  rw [hcall]
  refine ⟨hholds, ?_, ?_⟩
  · rw [emitted_append hreset, taken_append hreset, contents_append, List.append_assoc, htext,
      ← List.append_assoc, h.text]
  · rw [emitted_append hreset]
    exact h.spans.append hspans

theorem Accounts.feed (h : s.Accounts A offset run) (c : Char) :
    ∃ offset' run', (s.call (.feed c)).Accounts A offset' run' := by
  rcases h.holds.feed_cases c with ⟨_, lx, hfeed, hholds⟩ | ⟨_, label, lx, _, hfeed, hholds⟩ |
    ⟨_, _, hfeed⟩
  · refine ⟨offset, run ++ [c], h.call (e := .fed c (.ok none)) ?_ rfl hholds rfl rfl⟩
    rw [answer, hfeed]
  · refine ⟨_, [c], h.call (e := .fed c (.ok (some (Token.ofRun run label offset)))) ?_ rfl hholds
      ?_ (tile_ofRun run label offset)⟩
    · rw [answer, hfeed]
    · show contents [Token.ofRun run label offset] ++ [c] = run ++ [c]
      rw [contents_ofRun]
  · refine ⟨offset, run, h.call (e := .fed c (.error (s.lexer.invalid (some c)))) ?_ rfl h.holds
      (List.append_nil run).symm rfl⟩
    rw [answer, hfeed]

/-- A flush that succeeds gives back all that was left. -/
theorem Accounts.flush (h : s.Accounts A offset run) :
    ∃ offset' run', (s.call .flush).Accounts A offset' run' := by
  rcases h.holds.flush_cases with ⟨label, lx, _, hflush, hholds⟩ | ⟨_, hflush⟩
  · refine ⟨_, [], h.call (e := .flushed (.ok (Token.ofRun run label offset))) ?_ rfl hholds ?_
      (tile_ofRun run label offset)⟩
    · rw [answer, hflush]
    · show contents [Token.ofRun run label offset] ++ [] = run ++ []
      rw [contents_ofRun]
  · refine ⟨offset, run, h.call (e := .flushed (.error (s.lexer.invalid none))) ?_ rfl h.holds
      (List.append_nil run).symm rfl⟩
    rw [answer, hflush]

theorem Accounts.next (h : s.Accounts A offset run) (c : Call) :
    ∃ offset' run', (s.call c).Accounts A offset' run' := by
  cases c with
  | feed c => exact h.feed c
  | flush => exact h.flush
  | reset => exact ⟨0, [], accounts_reset h.holds⟩

theorem Accounts.foldl (h : s.Accounts A offset run) (calls : List Call) :
    ∃ offset' run', (calls.foldl Session.call s).Accounts A offset' run' := by
  induction calls generalizing s offset run with
  | nil => exact ⟨offset, run, h⟩
  | cons c calls ih =>
    rcases h.next c with ⟨offset', run', hnext⟩
    exact ih hnext

end Session

theorem exists_accounts (A : Automaton) (calls : List Call) :
    ∃ offset run, ((ofAutomaton A).session calls).Accounts A offset run := by
  have hnew : Session.Accounts A ⟨ofAutomaton A, []⟩ 0 [] := ⟨⟨rfl, rfl, rfl, rfl⟩, rfl, rfl⟩
  exact hnew.foldl calls

/-- After any calls, failed ones included, the lexer is in the states that its buffer leads to; the
tokens given since the last reset and the buffer are the characters that were taken since then; the
spans of the tokens lie side by side from the beginning of the input to where the buffer starts.  A
character or a flush that is refused leaves the lexer as it is. -/
theorem session_accounts (A : Automaton) (calls : List Call) :
    let s := (ofAutomaton A).session calls
    s.lexer.automaton = A ∧
    (∀ q, q ∈ A.epsilonClosure s.lexer.frontier ↔ A.Path A.entry s.lexer.buffer.toList q) ∧
    contents (emitted s.events) ++ s.lexer.buffer.toList = taken s.events ∧
    Tile 0 (emitted s.events) s.lexer.start ∧
    (∀ c e, (s.lexer.feed c).1 = .error e → (s.lexer.feed c).2 = s.lexer) ∧
    ∀ e, s.lexer.flush.1 = .error e → s.lexer.flush.2 = s.lexer := by
  intro s
  rcases exists_accounts A calls with ⟨offset, run, h⟩
  have hbuffer : s.lexer.buffer.toList = run := by
    rw [h.holds.buffer, String.toList_ofList]
  refine ⟨h.holds.automaton, fun q => ?_, ?_, ?_, fun c e => feed_eq_self_of_error,
    fun e => flush_eq_self_of_error⟩
  · rw [h.holds.frontier, hbuffer]
    exact Automaton.mem_reached
  · rw [hbuffer]
    exact h.text
  · rw [h.holds.start]
    exact h.spans

end Lexer

end JsonAutomata
