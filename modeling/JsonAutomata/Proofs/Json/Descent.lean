import JsonAutomata.Json.Descent
import JsonAutomata.Proofs.Json.Accepting
import JsonAutomata.Proofs.Json.Admitting

/-!
# Descents and readers

A descent reads a list of tokens like a reader: where a call is made, the reader is in a state with
as many open containers as the counter says, and where it returns, the reader has completed the
value, or fails for the same reason (`Descent.Follows`).
-/

namespace JsonAutomata

open Grammar

/-- The result of reading all tokens. -/
def Reader.conclude (limit : Option Nat) (reader : Reader) (tokens : List Token) :
    Except DecodeError Value :=
  match reader.run limit tokens with
  | .error e => .error e
  | .ok reader => reader.finish

namespace Descent

open Reader (conclude)

/-- A reader that is given the same tokens comes to the states in which the calls are made, and to
the same result; the counter is restored. -/
structure Follows (limit : Option Nat) (reader : Reader) (depth : Nat) (target : Value → Reader)
    {given : List Token} (r : Return given) : Prop where
  restored : r.depth = depth
  completes : ∀ v, r.result = .ok v → ∃ consumed, given = consumed ++ r.rest ∧
    reader.run limit consumed = .ok (target v)
  fails : ∀ e, r.result = .error e → reader.conclude limit given = .error e
  calls : ∀ call ∈ r.calls, ∃ consumed middle, given = consumed ++ call.tokens ∧
    reader.run limit consumed = .ok middle ∧ middle.depth = call.depth

/-- The same after a token, which the reader may refuse. -/
def FollowsOn (limit : Option Nat) (result : Except DecodeError Reader) (depth : Nat)
    (target : Value → Reader) {given : List Token} (r : Return given) : Prop :=
  match result with
  | .error e => r = .stop depth given (.error e)
  | .ok reader => Follows limit reader depth target r

variable {limit : Option Nat} {reader middle : Reader} {depth : Nat} {target : Value → Reader}
  {given rest consumed : List Token} {e : DecodeError} {t : Token} {v : Value}

/-! ## 1. Parts of a descent -/

theorem conclude_append (h : reader.run limit consumed = .ok middle) :
    reader.conclude limit (consumed ++ rest) = middle.conclude limit rest := by
  rw [conclude, conclude, run_append h]

theorem follows_error (h : reader.conclude limit given = .error e) :
    Follows limit reader depth target (.stop depth given (.error e)) where
  restored := rfl
  completes := nofun
  fails e' he := by
    cases he
    exact h
  calls := nofun

theorem follows_ok (h : reader = target v) :
    Follows limit reader depth target (.stop depth given (.ok v)) where
  restored := rfl
  completes w hw := by
    cases hw
    exact ⟨[], rfl, congrArg Except.ok h⟩
  fails := nofun
  calls := nofun

theorem Follows.called {r : Return given} (h : Follows limit reader depth target r)
    (hdepth : reader.depth = depth) : Follows limit reader depth target (r.called depth) where
  restored := h.restored
  completes := h.completes
  fails := h.fails
  calls call hcall := by
    rcases List.mem_cons.1 hcall with rfl | hcall
    · exact ⟨[], reader, rfl, rfl, hdepth⟩
    · exact h.calls call hcall

theorem Follows.leave {r : Return given} (h : Follows limit reader (depth + 1) target r) :
    Follows limit reader depth target r.leave where
  restored := by
    change r.depth - 1 = depth
    rw [h.restored, Nat.add_sub_cancel]
  completes := h.completes
  fails := h.fails
  calls := h.calls

/-- What follows from the state after a token follows from the state before it. -/
theorem FollowsOn.after {r : Return rest} (h : FollowsOn limit (reader.step limit t) depth target r) :
    Follows limit reader depth target (r.after t) := by
  cases hstep : reader.step limit t with
  | error e =>
    rw [hstep] at h
    obtain rfl := h
    have hconclude : reader.conclude limit (t :: rest) = .error e := by
      rw [conclude, Reader.run, hstep]
    refine ⟨rfl, fun v hv => ?_, fun e' he => ?_, fun call hcall => ?_⟩
    · cases hv
    · cases he
      exact hconclude
    · cases hcall
  | ok middle =>
    rw [hstep] at h
    have hcons : ∀ {consumed state}, middle.run limit consumed = .ok state →
        reader.run limit (t :: consumed) = .ok state :=
      fun hrun => Reader.run_cons_eq_ok_iff.2 ⟨middle, hstep, hrun⟩
    refine ⟨h.restored, fun v hv => ?_, fun e he => ?_, fun call hcall => ?_⟩
    · obtain ⟨consumed, hrest, hrun⟩ := h.completes v hv
      exact ⟨t :: consumed, congrArg (t :: ·) hrest, hcons hrun⟩
    · exact (conclude_append (run_singleton hstep)).trans (h.fails e he)
    · obtain ⟨consumed, state, hrest, hrun, hdepth⟩ := h.calls call hcall
      exact ⟨t :: consumed, state, congrArg (t :: ·) hrest, hcons hrun, hdepth⟩

/-- What is read after a value follows from the state in which the value is complete. -/
theorem Follows.andThen {r : Return given} {target' : Value → Reader}
    {next : Value → Nat → (rest : List Token) → rest.length ≤ given.length → Return rest}
    (h : Follows limit reader depth target r)
    (hnext : ∀ v rest hle, Follows limit (target v) depth target' (next v depth rest hle)) :
    Follows limit reader depth target' (r.andThen next) := by
  unfold Return.andThen
  cases hresult : r.result with
  | error e =>
    refine ⟨h.restored, fun v hv => ?_, h.fails, h.calls⟩
    rw [hresult] at hv
    cases hv
  | ok v =>
    obtain ⟨consumed, hgiven, hrun⟩ := h.completes v hresult
    have hs : Follows limit (target v) depth target' (next v r.depth r.rest r.progress) := by
      rw [h.restored]
      exact hnext v r.rest r.progress
    refine ⟨hs.restored, fun w hw => ?_, fun e he => ?_, fun call hcall => ?_⟩
    · obtain ⟨more, hrest, hmore⟩ := hs.completes w hw
      refine ⟨consumed ++ more, ?_, (run_append hrun).trans hmore⟩
      rw [List.append_assoc, ← hrest]
      exact hgiven
    · have hfails := hs.fails e he
      rw [← conclude_append hrun, ← hgiven] at hfails
      exact hfails
    · rcases List.mem_append.1 hcall with hcall | hcall
      · exact h.calls call hcall
      · obtain ⟨more, state, hrest, hmore, hdepth⟩ := hs.calls call hcall
        refine ⟨consumed ++ more, state, ?_, (run_append hrun).trans hmore, hdepth⟩
        rw [List.append_assoc, ← hrest]
        exact hgiven

/-- The state may be exchanged for one that reads every first token alike. -/
theorem Follows.of_step_eq {reader' : Reader} {r : Return given}
    (h : Follows limit reader' depth target r)
    (hstep : ∀ t ∈ given.head?, reader.step limit t = reader'.step limit t)
    (hfinish : reader.finish = reader'.finish) (hdepth : reader.depth = reader'.depth)
    (htarget : ∀ v, target v ≠ reader') : Follows limit reader depth target r := by
  have hrun : ∀ {t consumed rest}, given = t :: consumed ++ rest →
      reader.run limit (t :: consumed) = reader'.run limit (t :: consumed) := by
    intro t consumed rest hgiven
    rw [Reader.run, Reader.run, hstep t (by rw [hgiven]; rfl)]
  -- The states differ before the first token only, and no value is complete before it.
  refine ⟨h.restored, fun v hv => ?_, fun e he => ?_, fun call hcall => ?_⟩
  · obtain ⟨consumed, hgiven, hconsumed⟩ := h.completes v hv
    cases consumed with
    | nil => exact absurd (Except.ok.inj hconsumed).symm (htarget v)
    | cons t consumed => exact ⟨t :: consumed, hgiven, (hrun hgiven).trans hconsumed⟩
  · have hfails := h.fails e he
    cases given with
    | nil => exact hfinish.trans hfails
    | cons t rest =>
      rw [conclude, hrun (List.append_nil _).symm]
      exact hfails
  · obtain ⟨consumed, state, hgiven, hconsumed, hstate⟩ := h.calls call hcall
    cases consumed with
    | nil =>
      cases hconsumed
      exact ⟨[], reader, hgiven, rfl, hdepth.trans hstate⟩
    | cons t consumed => exact ⟨t :: consumed, state, hgiven, (hrun hgiven).trans hconsumed, hstate⟩

section Tokens

variable {kind closing : TokenKind} {expected : Expectation} {whole : Value}

theorem follows_end (hexpected : reader.expected? = some expected) :
    Follows limit reader depth target (.stop depth [] (.error (.unexpectedEnd expected))) :=
  follows_error (Reader.finish_of_expected hexpected)

theorem follows_unexpected (hexpected : reader.expected? = some expected)
    (hadmits : reader.admits t.kind? = false) :
    Follows limit reader depth target ((Return.stop depth rest (unexpected t expected)).after t) := by
  apply FollowsOn.after
  rw [Reader.step_of_refused hexpected hadmits]
  rfl

theorem follows_expect {next : Token → (rest : List Token) → rest.length < given.length → Return rest}
    (hexpected : reader.expected? = some expected)
    (hadmits : ∀ k, reader.admits k = true → k = some kind)
    (hnext : ∀ t rest hlt, t.kind? = some kind →
      FollowsOn limit (reader.step limit t) depth target (next t rest hlt)) :
    Follows limit reader depth target (expect depth kind expected given next) := by
  cases given with
  | nil => exact follows_end hexpected
  | cons t rest =>
    rw [expect]
    split
    · exact (hnext t rest _ ‹_›).after
    · rename_i hkind
      exact follows_unexpected hexpected (Bool.eq_false_of_not_eq_true fun h => hkind (hadmits _ h))

theorem follows_goOn {next : (rest : List Token) → rest.length < given.length → Return rest}
    (hexpected : reader.expected? = some expected)
    (hadmits : ∀ k, reader.admits k = true → k = some .comma ∨ k = some closing)
    (hcomma : ∀ t rest hlt, t.kind? = some .comma →
      FollowsOn limit (reader.step limit t) depth target (next rest hlt))
    (hclosing : ∀ t : Token, t.kind? = some closing → reader.step limit t = .ok (target whole)) :
    Follows limit reader depth target (goOn depth closing expected whole given next) := by
  cases given with
  | nil => exact follows_end hexpected
  | cons t rest =>
    rw [goOn]
    split
    · exact (hcomma t rest _ ‹_›).after
    · split
      · apply FollowsOn.after
        rw [hclosing t ‹_›]
        exact follows_ok rfl
      · rename_i hcomma hclosing
        apply follows_unexpected hexpected
        apply Bool.eq_false_of_not_eq_true
        exact fun h => (hadmits _ h).elim hcomma hclosing

/-- Only an empty container is read differently from one that is not. -/
theorem Follows.orEmpty {reader' : Reader} {empty : Value} {r : Return given}
    (h : Follows limit reader' depth target r)
    (hclosing : ∀ t : Token, t.kind? = some closing → reader.step limit t = .ok (target empty))
    (hother : ∀ t : Token, t.kind? ≠ some closing → reader.step limit t = reader'.step limit t)
    (hfinish : reader.finish = reader'.finish) (hdepth : reader.depth = reader'.depth)
    (htarget : ∀ v, target v ≠ reader') :
    Follows limit reader depth target (orEmpty depth closing empty r) := by
  cases given with
  | nil => exact h.of_step_eq nofun hfinish hdepth htarget
  | cons t rest =>
    rw [Descent.orEmpty]
    split
    · apply FollowsOn.after
      rw [hclosing t ‹_›]
      exact follows_ok rfl
    · rename_i hkind
      apply h.of_step_eq _ hfinish hdepth htarget
      intro u hu
      cases hu
      exact hother t hkind

end Tokens

/-! ## 3. Values and containers -/

variable {frames : List Frame}

theorem followsOn_unescape {f : String → Value} {g : String → Reader}
    (h : ∀ s, g s = target (f s)) :
    FollowsOn limit (t.unescape.map g) depth target (.stop depth rest (t.unescape.map f)) := by
  cases t.unescape with
  | error e => rfl
  | ok s => exact follows_ok (h s)

theorem followsOn_nested {into : List Frame → Reader} {inner : Nat → Return rest}
    (h : Follows limit (into frames) (frames.length + 1) target (inner (frames.length + 1))) :
    FollowsOn limit (Reader.openContainer limit frames t into) frames.length target
      (nested limit frames.length t rest inner) := by
  rw [Reader.openContainer, nested]
  split
  · rfl
  · exact h.leave

theorem complete_ne_value (v : Value) (frames frames' : List Frame) :
    Reader.complete v frames ≠ .value frames' := by
  cases frames with
  | nil => nofun
  | cons frame outer => cases frame <;> nofun

theorem complete_ne_nextKey (v : Value) (frames : List Frame) (members : List (String × Value))
    (outer : List Frame) : Reader.complete v frames ≠ .nextKey members outer := by
  cases frames with
  | nil => nofun
  | cons frame outer => cases frame <;> nofun

mutual

theorem follows_value (limit : Option Nat) (frames : List Frame) (tokens : List Token) :
    Follows limit (.value frames) frames.length (Reader.complete · frames)
      (value limit frames.length tokens) := by
  rw [value.eq_def]
  apply Follows.called _ (by rfl)
  cases tokens with
  | nil => exact follows_end rfl
  | cons t rest =>
    apply FollowsOn.after
    rw [Reader.step, Reader.beginValue]
    cases t.kind? with
    | none => rfl
    | some kind =>
      cases kind with
      | leftBrace =>
        apply followsOn_nested
        exact follows_object limit frames rest
      | leftBracket =>
        apply followsOn_nested
        exact follows_array limit frames rest
      | string => exact followsOn_unescape fun _ => rfl
      | number => exact follows_ok rfl
      | true => exact follows_ok rfl
      | false => exact follows_ok rfl
      | null => exact follows_ok rfl
      | _ => rfl
termination_by (tokens.length, 0)

theorem follows_object (limit : Option Nat) (frames : List Frame) (tokens : List Token) :
    Follows limit (.firstKey frames) (frames.length + 1) (Reader.complete · frames)
      (object limit (frames.length + 1) tokens) := by
  rw [object]
  apply Follows.called _ (by rfl)
  apply (follows_members limit frames [] tokens).orEmpty
  · exact fun t hclosing => if_pos hclosing
  · exact fun t hother => if_neg hother
  · rfl
  · rfl
  · exact fun v => complete_ne_nextKey v frames [] frames
termination_by (tokens.length, 2)

theorem follows_array (limit : Option Nat) (frames : List Frame) (tokens : List Token) :
    Follows limit (.firstItem frames) (frames.length + 1) (Reader.complete · frames)
      (array limit (frames.length + 1) tokens) := by
  rw [array]
  apply Follows.called _ (by rfl)
  apply (follows_items limit frames [] tokens).orEmpty
  · exact fun t hclosing => if_pos hclosing
  · exact fun t hother => if_neg hother
  · rfl
  · rfl
  · exact fun v => complete_ne_value v frames (.array [] :: frames)
termination_by (tokens.length, 2)

theorem follows_members (limit : Option Nat) (frames : List Frame)
    (before : List (String × Value)) (tokens : List Token) :
    Follows limit (.nextKey before frames) (frames.length + 1) (Reader.complete · frames)
      (members limit (frames.length + 1) before tokens) := by
  rw [members]
  apply follows_expect rfl
  · exact fun k hk => of_decide_eq_true hk
  · intro t rest hlt hstring
    rw [Reader.step, Reader.readKey, if_pos hstring]
    cases t.unescape with
    | error e => rfl
    | ok key =>
      apply follows_expect rfl
      · exact fun k hk => of_decide_eq_true hk
      · intro t rest hlt' hcolon
        rw [Reader.step, if_pos hcolon]
        apply (follows_value limit (.object before key :: frames) rest).andThen
        intro v rest hle
        apply follows_goOn rfl
        · intro k hk
          simpa [Reader.complete, Reader.admits] using hk
        · intro t rest hlt'' hcomma
          rw [Reader.complete, Reader.step, hcomma]
          exact follows_members limit frames (Entries.insert key v before) rest
        · intro t hclosing
          rw [Reader.complete, Reader.step, hclosing]
termination_by (tokens.length, 1)

theorem follows_items (limit : Option Nat) (frames : List Frame) (before : List Value)
    (tokens : List Token) :
    Follows limit (.value (.array before :: frames)) (frames.length + 1) (Reader.complete · frames)
      (items limit (frames.length + 1) before tokens) := by
  rw [items]
  apply (follows_value limit (.array before :: frames) tokens).andThen
  intro v rest hle
  apply follows_goOn rfl
  · intro k hk
    simpa [Reader.complete, Reader.admits] using hk
  · intro t rest hlt hcomma
    rw [Reader.complete, Reader.step, hcomma]
    exact follows_items limit frames (v :: before) rest
  · intro t hclosing
    rw [Reader.complete, Reader.step, hclosing]
termination_by (tokens.length, 1)

end

/-! ## 4. Whole lists of tokens -/

/-- A descent and a reader give the same result. -/
theorem read_eq (limit : Option Nat) (tokens : List Token) :
    read limit tokens = Reader.read limit tokens := by
  have h := follows_value limit [] tokens
  rw [List.length_nil] at h
  change _ = conclude limit (.value []) tokens
  rw [read]
  cases hresult : (value limit 0 tokens).result with
  | error e => exact (h.fails e hresult).symm
  | ok v =>
    obtain ⟨consumed, htokens, hrun⟩ := h.completes v hresult
    have hconclude : conclude limit (.value []) tokens
        = (Reader.complete v []).conclude limit (value limit 0 tokens).rest := by
      conv_lhs => rw [htokens]
      exact conclude_append hrun
    rw [hconclude]
    cases (value limit 0 tokens).rest with
    | nil => rfl
    | cons t rest => rfl

/-- The counter is restored, whatever the result. -/
theorem depth_value (limit : Option Nat) (depth : Nat) (tokens : List Token) :
    (value limit depth tokens).depth = depth := by
  have h := (follows_value limit (List.replicate depth (.array [])) tokens).restored
  rwa [List.length_replicate] at h

end Descent

end JsonAutomata
