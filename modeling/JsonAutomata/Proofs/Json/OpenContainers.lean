import JsonAutomata.Proofs.Json.Descent
import JsonAutomata.Proofs.Json.RoundTrip
import Mathlib.Order.Nat

/-!
# Open containers — what the limit changes

A reader has as many containers open as it has read opening brackets more than closing ones
(`Reader.depth_run`).  The limit makes a difference only to texts for which a decoder without a limit
opens one container too many; for these the first such bracket is reported, whatever follows it
(`decode_limit_exact`).
-/

namespace JsonAutomata

open Grammar

variable {L : Nat} {limit : Option Nat} {tokens : List Token} {t : Token}

namespace Reader

variable {reader middle next : Reader}

/-! ## 1. Depth along a run -/

theorem depth_run (h : reader.run limit tokens = .ok next) :
    next.depth + tokens.countP Token.closes = reader.depth + tokens.countP Token.opens := by
  have hcount : ∀ b : Bool, (if b = true then 1 else 0) = b.toNat := by decide
  induction tokens generalizing reader with
  | nil =>
    cases h
    rfl
  | cons t tokens ih =>
    obtain ⟨middle, hstep, hrest⟩ := run_cons_eq_ok_iff.1 h
    have hfirst := depth_step hstep
    have htail := ih hrest
    rw [List.countP_cons, List.countP_cons, hcount, hcount]
    omega

theorem depth_run_le (h : reader.run (some L) tokens = .ok next) (hle : reader.depth ≤ L) :
    next.depth ≤ L := by
  induction tokens generalizing reader with
  | nil =>
    cases h
    exact hle
  | cons t tokens ih =>
    obtain ⟨middle, hstep, hrest⟩ := run_cons_eq_ok_iff.1 h
    apply ih hrest
    have hdepth := depth_step hstep
    have hroom := (step_eq_ok_iff.1 hstep).2
    cases hopens : t.opens with
    | false =>
      rw [hopens, Bool.toNat_false] at hdepth
      omega
    | true =>
      rw [hopens, Bool.toNat_true] at hdepth
      have hne : reader.depth ≠ L := fun heq => hroom ⟨hopens, congrArg some heq.symm⟩
      omega

/-! ## 2. The first container too many -/

/-- Without a limit, a reader of the tokens opens a container at one of them while `L` are open. -/
def OpensAt (L : Nat) (reader : Reader) (tokens : List Token) (t : Token) : Prop :=
  ∃ before after middle next, tokens = before ++ t :: after ∧
    reader.run none before = .ok middle ∧ middle.step none t = .ok next ∧
    middle.depth = L ∧ next.depth = L + 1

theorem OpensAt.mem (h : OpensAt L reader tokens t) : t ∈ tokens := by
  obtain ⟨before, after, _, _, rfl, _⟩ := h
  exact List.mem_append_right before List.mem_cons_self

theorem opensAt_cons_iff {u : Token} : OpensAt L reader (u :: tokens) t ↔
    ∃ next, reader.step none u = .ok next ∧
      ((t = u ∧ reader.depth = L ∧ next.depth = L + 1) ∨ OpensAt L next tokens t) := by
  constructor
  · rintro ⟨before, after, middle, next, htokens, hrun, hstep, hdepth⟩
    cases before with
    | nil =>
      cases htokens
      cases hrun
      exact ⟨next, hstep, .inl ⟨rfl, hdepth⟩⟩
    | cons u' before =>
      cases htokens
      obtain ⟨state, hfirst, hrest⟩ := run_cons_eq_ok_iff.1 hrun
      exact ⟨state, hfirst, .inr ⟨before, after, middle, next, rfl, hrest, hstep, hdepth⟩⟩
  · rintro ⟨next, hstep, ⟨rfl, hdepth⟩ | ⟨before, after, middle, next', rfl, hrun, hstep', hdepth⟩⟩
    · exact ⟨[], tokens, reader, next, rfl, rfl, hstep, hdepth⟩
    · exact ⟨u :: before, after, middle, next', rfl, run_cons_eq_ok_iff.2 ⟨next, hstep, hrun⟩,
        hstep', hdepth⟩

/-- What a token does under a limit, if it is accepted without one. -/
theorem step_limit (h : reader.step none t = .ok next) : reader.step (some L) t =
    if reader.depth = L ∧ next.depth = L + 1 then .error (.depthLimit t.span.start)
    else .ok next := by
  have hexcess : (t.opens = true ∧ some L = some reader.depth) ↔
      reader.depth = L ∧ next.depth = L + 1 := by
    rw [← depth_succ_iff h, Option.some.injEq]
    omega
  rw [step_of_admits (admits_of_step h), h]
  exact if_congr hexcess rfl rfl

theorem run_eq_of_never (h : ∀ t, ¬ OpensAt L reader tokens t) :
    reader.run (some L) tokens = reader.run none tokens := by
  induction tokens generalizing reader with
  | nil => rfl
  | cons t tokens ih =>
    rw [run, run]
    cases hstep : reader.step none t with
    | error e => rw [step_eq_error hstep]
    | ok next =>
      rw [step_limit hstep, if_neg]
      · exact ih fun u hu => h u (opensAt_cons_iff.2 ⟨next, hstep, .inr hu⟩)
      · exact fun hdepth => h t (opensAt_cons_iff.2 ⟨next, hstep, .inl ⟨rfl, hdepth⟩⟩)

theorem run_eq_of_first (hsorted : tokens.Pairwise fun a b => a.span.start < b.span.start)
    (h : OpensAt L reader tokens t)
    (hfirst : ∀ u, OpensAt L reader tokens u → t.span.start ≤ u.span.start) :
    reader.run (some L) tokens = .error (.depthLimit t.span.start) := by
  induction tokens generalizing reader with
  | nil => exact absurd h.mem List.not_mem_nil
  | cons u tokens ih =>
    obtain ⟨next, hstep, hcases⟩ := opensAt_cons_iff.1 h
    have hsorted := List.pairwise_cons.1 hsorted
    rw [run, step_limit hstep]
    by_cases hdepth : reader.depth = L ∧ next.depth = L + 1
    · -- The first one of all tokens is the token.
      rw [if_pos hdepth]
      rcases hcases with ⟨rfl, _⟩ | htail
      · rfl
      · have hle := hfirst u (opensAt_cons_iff.2 ⟨next, hstep, .inl ⟨rfl, hdepth⟩⟩)
        exact absurd (hsorted.1 t htail.mem) (Nat.not_lt.2 hle)
    · rw [if_neg hdepth]
      rcases hcases with ⟨_, hexcess⟩ | htail
      · exact absurd hexcess hdepth
      · apply ih hsorted.2 htail
        exact fun w hw => hfirst w (opensAt_cons_iff.2 ⟨next, hstep, .inr hw⟩)

end Reader

/-! ## 3. Texts -/

/-- Without a limit, decoding the text opens a container at the offset while `L` are open. -/
def Overflows (L : Nat) (text : List Char) (offset : Nat) : Prop :=
  ∃ tokens t, jsonTokens text = .ok tokens ∧
    Reader.OpensAt L .start (Decoder.significant tokens) t ∧ t.span.start = offset

variable {text : List Char} {offset : Nat}

theorem Overflows.exists_opening (h : Overflows L text offset) :
    ∃ pre c rest, text = pre ++ c :: rest ∧ Utf8.byteLength pre = offset ∧ IsOpening c := by
  obtain ⟨tokens, t, htokens, ⟨before, after, middle, next, hsplit, _, hstep, hdepth⟩, rfl⟩ := h
  obtain ⟨pre, run, rest, kind, _, rfl, rfl, hlexeme, _⟩ :=
    JsonMunch.exists_place (jsonTokens_eq_ok_iff.1 htokens) hsplit
  have hopens := (Reader.depth_succ_iff hstep).1 (by rw [hdepth.1, hdepth.2])
  rw [Token.opens_of_kind (kind?_ofRun run kind _)] at hopens
  obtain ⟨c, hc, rfl⟩ := TokenKind.exists_opening hlexeme hopens
  exact ⟨pre, c, rest, rfl, rfl, hc⟩

theorem decodeWithin_of_never (h : ∀ offset, ¬ Overflows L text offset) :
    decodeWithin (some L) text = decodeWithin none text := by
  cases htokens : jsonTokens text with
  | error cause => rw [decodeWithin_eq_of_error htokens, decodeWithin_eq_of_error htokens]
  | ok tokens =>
    have hmunch := jsonTokens_eq_ok_iff.1 htokens
    rw [decodeWithin_eq_of_munch hmunch, decodeWithin_eq_of_munch hmunch, Reader.read, Reader.read,
      Reader.run_eq_of_never]
    exact fun t ht => h t.span.start ⟨tokens, t, htokens, ht, rfl⟩

theorem Overflows.exists_isLeast (h : ∃ offset, Overflows L text offset) :
    ∃ offset, IsLeast {o | Overflows L text o} offset := by
  classical
  exact ⟨_, Nat.isLeast_find h⟩

theorem decodeWithin_of_first (h : IsLeast {o | Overflows L text o} offset) :
    decodeWithin (some L) text = .error (.depthLimit offset) := by
  obtain ⟨⟨tokens, t, htokens, hopens, rfl⟩, hleast⟩ := h
  have hmunch := jsonTokens_eq_ok_iff.1 htokens
  have hsorted : (Decoder.significant tokens).Pairwise fun a b => a.span.start < b.span.start :=
    hmunch.pairwise_start.filter _
  have hrun := Reader.run_eq_of_first hsorted hopens fun u hu =>
    hleast ⟨tokens, u, htokens, hu, rfl⟩
  rw [decodeWithin_eq_of_munch hmunch, Reader.read, hrun]

/-! ## 4. Depth of values -/

namespace Value

mutual

theorem depth_le_nesting : (v : Value) → v.depth ≤ v.nesting + 1
  | .array items => by
    have h := depthItems_le_nesting items
    rw [depth, nesting]
    omega
  | .object members => by
    have h := depthMembers_le_nesting members
    rw [depth, nesting]
    omega
  | .string _ => Nat.le_refl _
  | .number _ => Nat.le_refl _
  | .boolean _ => Nat.le_refl _
  | .null => Nat.le_refl _

theorem depthItems_le_nesting : (vs : List Value) → depthItems vs ≤ nestingItems vs + 1
  | [] => Nat.zero_le _
  | v :: vs => by
    have hfirst := depth_le_nesting v
    have hrest := depthItems_le_nesting vs
    rw [depthItems, nestingItems]
    omega

theorem depthMembers_le_nesting :
    (ms : List (String × Value)) → depthMembers ms ≤ nestingMembers ms + 1
  | [] => Nat.zero_le _
  | (_, v) :: ms => by
    have hfirst := depth_le_nesting v
    have hrest := depthMembers_le_nesting ms
    rw [depthMembers, nestingMembers]
    omega

end

end Value

/-! ## 5. Calls of a descent -/

/-- At every call the counter says how many containers are open, and does not exceed the limit. -/
theorem Descent.depth_call {call : Descent.Call}
    (h : call ∈ (Descent.value (some L) 0 tokens).calls) :
    call.depth ≤ L ∧ ∃ consumed, tokens = consumed ++ call.tokens ∧
      call.depth + consumed.countP Token.closes = consumed.countP Token.opens := by
  obtain ⟨consumed, middle, htokens, hrun, hdepth⟩ :=
    (Descent.follows_value (some L) [] tokens).calls call h
  have hcount := Reader.depth_run hrun
  rw [← hdepth]
  refine ⟨Reader.depth_run_le hrun (Nat.zero_le L), consumed, htokens, ?_⟩
  rw [hcount]
  exact Nat.zero_add _

/-! ## 6. The main result -/

/-- The limit is exact.  Where decoding without a limit never opens a container while 128 are open,
the limit makes no difference, to values or to errors; else the first such bracket is reported.
Decoding is a descent that counts the open containers: at each of its calls the counter is their
number and at most 128, and it is restored whatever the result.  So decoded values have a depth of at
most 129. -/
theorem decode_limit_exact (text : List Char) :
    ((¬ ∃ offset, Overflows 128 text offset) → decode text = decodeWithin none text) ∧
    ((∃ offset, Overflows 128 text offset) →
      ∃ pre c rest, text = pre ++ c :: rest ∧ IsOpening c ∧
        IsLeast {o | Overflows 128 text o} (Utf8.byteLength pre) ∧
        decode text = .error (.depthLimit (Utf8.byteLength pre))) ∧
    (∀ tokens, jsonTokens text = .ok tokens →
      decode text = Descent.read (some 128) (Decoder.significant tokens)) ∧
    (∀ tokens, ∀ call ∈ (Descent.value (some 128) 0 tokens).calls, call.depth ≤ 128 ∧
      ∃ consumed, tokens = consumed ++ call.tokens ∧
        call.depth + consumed.countP Token.closes = consumed.countP Token.opens) ∧
    (∀ depth tokens, (Descent.value (some 128) depth tokens).depth = depth) ∧
    ∀ v, decode text = .ok v → v.depth ≤ 129 := by
  refine ⟨fun h => ?_, fun h => ?_, fun tokens h => ?_, fun tokens call => Descent.depth_call,
    Descent.depth_value _, fun v h => ?_⟩
  · exact decodeWithin_of_never (not_exists.1 h)
  · obtain ⟨offset, hleast⟩ := Overflows.exists_isLeast h
    obtain ⟨pre, c, rest, htext, rfl, hc⟩ := hleast.1.exists_opening
    exact ⟨pre, c, rest, htext, hc, hleast, decodeWithin_of_first hleast⟩
  · rw [Descent.read_eq]
    exact decodeWithin_eq_of_munch (jsonTokens_eq_ok_iff.1 h)
  · have hnesting : v.nesting ≤ 128 := (decodeWithin_eq_ok_iff_derives.1 h).nesting_le
    exact Nat.le_trans v.depth_le_nesting (Nat.succ_le_succ hnesting)

end JsonAutomata
