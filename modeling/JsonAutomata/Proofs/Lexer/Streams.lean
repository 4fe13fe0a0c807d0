import JsonAutomata.Proofs.Lexer.History

/-!
# Streams — whole inputs, one answer at a time

A stream makes the calls that reading its whole input makes, and rests after each token.  So it
answers with the tokens of the scan, then with the error that ended it, if there is one, and with
nothing from then on (`TokenStream.take_scanFrom`).  What a lexer gives in any way, it gives in answer
to a call.
-/

namespace JsonAutomata

/-! ## Lists as answers -/

section Answers

variable {α : Type} (x : α) (xs : List α) (count : Nat)

theorem map_getElem?_range_nil :
    (List.range count).map (fun n => ([] : List α)[n]?) = List.replicate count none := by
  simp only [List.getElem?_nil, List.map_const', List.length_range]

theorem map_getElem?_range_cons :
    (List.range (count + 1)).map (fun n => (x :: xs)[n]?)
      = some x :: (List.range count).map fun n => xs[n]? := by
  rw [List.range_succ_eq_map, List.map_cons, List.map_map]
  rfl

end Answers

/-- What a stream gives: the tokens of the scan, then its error. -/
def Scan.items (s : Scan) : List (Except LexError Token) :=
  s.tokens.map .ok ++ (s.failure.map .error).toList

theorem Scan.getElem?_items {s : Scan} {n : Nat} {t : Token} (h : s.tokens[n]? = some t) :
    s.items[n]? = some (.ok t) := by
  have hlt : n < s.tokens.length := (List.getElem?_eq_some_iff.1 h).1
  rw [Scan.items, List.getElem?_append_left (by rwa [List.length_map]), List.getElem?_map, h]
  rfl

/-! ## Streams and scans -/

namespace TokenStream

variable {lx lx' : Lexer} {c : Char}

theorem next_of_kept (h : lx.feed c = (.ok none, lx')) (fed : Bool) (rest : List Char) :
    next ⟨lx, c :: rest, fed, false⟩ = next ⟨lx', rest, true, false⟩ := by
  show pull lx fed (c :: rest) = pull lx' true rest
  rw [pull, h]

theorem next_of_given {t : Token} (h : lx.feed c = (.ok (some t), lx')) (fed : Bool)
    (rest : List Char) :
    next ⟨lx, c :: rest, fed, false⟩ = (some (.ok t), ⟨lx', rest, true, false⟩) := by
  show pull lx fed (c :: rest) = _
  rw [pull, h]

theorem next_of_refused {e : LexError} (h : lx.feed c = (.error e, lx')) (fed : Bool)
    (rest : List Char) :
    next ⟨lx, c :: rest, fed, false⟩ = (some (.error e), ⟨lx', rest, true, true⟩) := by
  show pull lx fed (c :: rest) = _
  rw [pull, h]

theorem take_succ (count : Nat) (s : TokenStream) :
    (take (count + 1) s).1 = s.next.1 :: (take count s.next.2).1 := rfl

theorem take_of_finished {s : TokenStream} (h : s.finished = true) (count : Nat) :
    (take count s).1 = List.replicate count none := by
  have hnext : s.next = (none, s) := by
    unfold next
    rw [if_pos h]
  induction count with
  | zero => rfl
  | succ count ih => rw [take_succ, hnext, ih, List.replicate_succ]

/-- Pulling at the end of the input flushes the lexer, once. -/
theorem take_of_end (lx : Lexer) (fed : Bool) (count : Nat) :
    (take count ⟨lx, [], fed, false⟩).1
      = (List.range count).map fun n => (lx.scanFrom fed []).items[n]? := by
  cases count with
  | zero => rfl
  | succ count =>
    cases fed with
    | false =>
      show none :: (take count ⟨lx, [], false, true⟩).1
        = (List.range (count + 1)).map fun n => ([] : List (Except LexError Token))[n]?
      rw [take_of_finished rfl, map_getElem?_range_nil, List.replicate_succ]
    | true =>
      have hnext : next ⟨lx, [], true, false⟩ = (some lx.flush.1, ⟨lx.flush.2, [], true, true⟩) := rfl
      have hitems : (lx.scanFrom true []).items = [lx.flush.1] := by
        rw [Lexer.scanFrom, if_pos rfl]
        rcases lx.flush with ⟨answer, lx'⟩
        cases answer with
        | ok t => rfl
        | error e => rfl
      rw [take_succ, hnext, take_of_finished rfl, hitems, map_getElem?_range_cons,
        map_getElem?_range_nil]

/-- The answers of a stream are what the scan gives, and then none. -/
theorem take_scanFrom (lx : Lexer) (fed : Bool) (rest : List Char) (count : Nat) :
    (take count ⟨lx, rest, fed, false⟩).1
      = (List.range count).map fun n => (lx.scanFrom fed rest).items[n]? := by
  induction rest generalizing lx fed count with
  | nil => exact take_of_end lx fed count
  | cons c rest ih =>
    cases count with
    | zero => rfl
    | succ count =>
      rcases hfeed : lx.feed c with ⟨answer, lx'⟩
      rw [Lexer.scanFrom, hfeed, take_succ]
      cases answer with
      | ok token =>
        cases token with
        | none =>
          rw [next_of_kept hfeed fed rest, ← take_succ]
          exact ih lx' true (count + 1)
        | some t =>
          rw [next_of_given hfeed fed rest]
          show some (.ok t) :: (take count ⟨lx', rest, true, false⟩).1
            = (List.range (count + 1)).map fun n => (.ok t :: (lx'.scanFrom true rest).items)[n]?
          rw [ih lx' true count, map_getElem?_range_cons]
      | error e =>
        rw [next_of_refused hfeed fed rest]
        show some (.error e) :: (take count ⟨lx', rest, true, true⟩).1
          = (List.range (count + 1)).map fun n => [(.error e : Except LexError Token)][n]?
        rw [take_of_finished rfl, map_getElem?_range_cons, map_getElem?_range_nil]

end TokenStream

namespace Lexer

variable {lx lx' : Lexer} {t : Token}

/-- The stream of an input answers with the tokens of the scan, and then with its error. -/
theorem take_stream (lx : Lexer) (input : List Char) :
    ((lx.stream input).take ((lx.scan input).tokens.length + 1)).1
      = (lx.scan input).tokens.map (fun t => some (.ok t))
        ++ [(lx.scan input).failure.map .error] := by
  rw [stream, TokenStream.take_scanFrom lx.reset false input]
  show (List.range _).map (fun n => (lx.scan input).items[n]?) = _
  rw [Scan.items]
  induction (lx.scan input).tokens with
  | nil => cases (lx.scan input).failure <;> rfl
  | cons t tokens ih =>
    rw [List.map_cons, List.cons_append, List.length_cons, map_getElem?_range_cons, ih]
    rfl

/-! ## Tokens as answers -/

def Gives (lx : Lexer) (t : Token) : Prop :=
  ∃ lx', Reaches lx lx' ∧ ∃ c, (lx'.answer c).1.token? = some t

theorem Gives.after (h : Reaches lx lx') (ht : lx'.Gives t) : lx.Gives t := by
  rcases ht with ⟨other, hother, hanswer⟩
  exact ⟨other, h.trans hother, hanswer⟩

theorem gives_of_mem_scanFrom {fed : Bool} {input : List Char}
    (h : t ∈ (lx.scanFrom fed input).tokens) : lx.Gives t := by
  induction input generalizing lx fed with
  | nil =>
    cases fed with
    | false => cases h
    | true =>
      rcases hflush : lx.flush with ⟨answer, lx'⟩
      rw [scanFrom, if_pos rfl, hflush] at h
      cases answer with
      | ok token =>
        cases List.mem_singleton.1 h
        refine ⟨lx, .refl lx, .flush, ?_⟩
        rw [answer, hflush]
        rfl
      | error e => cases h
  | cons c rest ih =>
    rcases hfeed : lx.feed c with ⟨answer, lx'⟩
    rw [scanFrom, hfeed] at h
    cases answer with
    | ok token =>
      cases token with
      | none => exact (ih h).after (.feed hfeed)
      | some first =>
        rcases List.mem_cons.1 h with rfl | h
        · refine ⟨lx, .refl lx, .feed c, ?_⟩
          rw [answer, hfeed]
          rfl
        · exact (ih h).after (.feed hfeed)
    | error e => cases h

/-- Every token of a scan is the answer to a call. -/
theorem gives_of_mem_scan {input : List Char} (h : t ∈ (lx.scan input).tokens) : lx.Gives t :=
  (gives_of_mem_scanFrom h).after (.answer lx .reset)

end Lexer

end JsonAutomata
