import JsonAutomata.Proofs.Json.Reading

/-!
# Admitting — what one token can do

A state of a reader admits some kinds of tokens.  A token of another kind is refused whatever its
text is (`Reader.step_of_not_admits`).  A token of an admitted kind leads on, and changes the number
of open containers by what it opens and closes (`Reader.reads_step`), unless it opens a container
too many (`Reader.step_of_admits`) or is a string with an escape that denotes nothing.
-/

namespace JsonAutomata

open Grammar

/-! ## 1. Kinds of tokens -/

namespace TokenKind

def opens : TokenKind → Bool
  | leftBrace | leftBracket => Bool.true
  | _ => Bool.false

def closes : TokenKind → Bool
  | rightBrace | rightBracket => Bool.true
  | _ => Bool.false

end TokenKind

namespace Token

def opens (t : Token) : Bool := t.kind?.any TokenKind.opens

def closes (t : Token) : Bool := t.kind?.any TokenKind.closes

theorem opens_of_kind {t : Token} {kind : TokenKind} (h : t.kind? = some kind) :
    t.opens = kind.opens := by
  rw [opens, h, Option.any_some]

theorem closes_of_kind {t : Token} {kind : TokenKind} (h : t.kind? = some kind) :
    t.closes = kind.closes := by
  rw [closes, h, Option.any_some]

theorem closes_of_opens {t : Token} (h : t.opens = true) : t.closes = false := by
  unfold opens at h
  cases hkind : t.kind? with
  | none =>
    rw [hkind] at h
    cases h
  | some kind =>
    rw [hkind] at h
    rw [closes_of_kind hkind]
    cases kind <;> first | rfl | cases h

end Token

namespace Reader

variable {reader next : Reader} {frames outer : List Frame} {limit : Option Nat} {t : Token}
  {kind : TokenKind} {e : DecodeError}

def beginsValue : Option TokenKind → Bool
  | some .leftBrace | some .leftBracket | some .string | some .number => true
  | some .true | some .false | some .null => true
  | _ => false

def admits : Reader → Option TokenKind → Bool
  | value _, kind => beginsValue kind
  | firstItem _, kind => kind = some .rightBracket || beginsValue kind
  | firstKey _, kind => kind = some .rightBrace || kind = some .string
  | nextKey _ _, kind => kind = some .string
  | colon _ _ _, kind => kind = some .colon
  | afterItem _ _, kind => kind = some .comma || kind = some .rightBracket
  | afterMember _ _, kind => kind = some .comma || kind = some .rightBrace
  | done _, _ => false

/-- What is named where something else stands; nothing after a complete document. -/
def expected? : Reader → Option Expectation
  | value _ | firstItem _ => some .value
  | firstKey _ | nextKey _ _ => some .stringKey
  | colon _ _ _ => some .colon
  | afterItem _ _ => some .commaOrBracket
  | afterMember _ _ => some .commaOrBrace
  | done _ => none

def refusal (reader : Reader) (t : Token) : DecodeError :=
  match reader.expected? with
  | some expected => .unexpectedToken t.content expected t.span.start
  | none => .trailingTokens t.span.start

/-! ## 2. Tokens that are not admitted -/

theorem beginValue_of_not (h : beginsValue t.kind? = false) :
    beginValue limit frames t = unexpected t .value := by
  unfold beginValue
  split <;> first | rfl | (rename_i hkind; rw [hkind] at h; cases h)

theorem readKey_of_ne {members : List (String × Value)} (h : t.kind? ≠ some .string) :
    readKey members outer t = unexpected t .stringKey := if_neg h

theorem step_of_not_admits (h : reader.admits t.kind? = false) :
    reader.step limit t = .error (reader.refusal t) := by
  cases reader with
  | value frames => exact beginValue_of_not h
  | firstItem outer =>
    simp only [admits, Bool.or_eq_false_iff, decide_eq_false_iff_not] at h
    rw [step, if_neg h.1]
    exact beginValue_of_not h.2
  | firstKey outer =>
    simp only [admits, Bool.or_eq_false_iff, decide_eq_false_iff_not] at h
    rw [step, if_neg h.1]
    exact readKey_of_ne h.2
  | nextKey members outer => exact readKey_of_ne (of_decide_eq_false h)
  | colon members key outer => exact if_neg (of_decide_eq_false h)
  | afterItem items outer =>
    simp only [admits, Bool.or_eq_false_iff, decide_eq_false_iff_not] at h
    rw [step]
    split
    · exact absurd ‹_› h.1
    · exact absurd ‹_› h.2
    · rfl
  | afterMember members outer =>
    simp only [admits, Bool.or_eq_false_iff, decide_eq_false_iff_not] at h
    rw [step]
    split
    · exact absurd ‹_› h.1
    · exact absurd ‹_› h.2
    · rfl
  | done v => rfl

theorem step_of_refused {expected : Expectation} (hexpected : reader.expected? = some expected)
    (h : reader.admits t.kind? = false) :
    reader.step limit t = .error (.unexpectedToken t.content expected t.span.start) := by
  rw [step_of_not_admits h, refusal, hexpected]

theorem finish_of_expected {expected : Expectation} (h : reader.expected? = some expected) :
    reader.finish = .error (.unexpectedEnd expected) := by
  cases reader <;> cases h <;> rfl

/-! ## 3. Tokens that are admitted -/

@[simp]
theorem depth_complete (v : Value) (frames : List Frame) :
    (complete v frames).depth = frames.length := by
  cases frames with
  | nil => rfl
  | cons frame outer => cases frame <;> rfl

/-- The result is a further state at the right depth, or the error of a string with a wrong
escape. -/
def Reads (reader : Reader) (t : Token) (result : Except DecodeError Reader) : Prop :=
  (∃ next, result = .ok next ∧ next.depth + t.closes.toNat = reader.depth + t.opens.toNat) ∨
    ∃ e, t.kind? = some .string ∧ t.unescape = .error e ∧ result = .error e

theorem reads_ok (hkind : t.kind? = some kind)
    (hdepth : next.depth + kind.closes.toNat = reader.depth + kind.opens.toNat) :
    Reads reader t (.ok next) := by
  apply Or.inl
  rw [Token.opens_of_kind hkind, Token.closes_of_kind hkind]
  exact ⟨next, rfl, hdepth⟩

theorem reads_complete {v : Value} (hkind : t.kind? = some kind)
    (hdepth : frames.length + kind.closes.toNat = reader.depth + kind.opens.toNat) :
    Reads reader t (.ok (complete v frames)) := by
  apply reads_ok hkind
  rw [depth_complete]
  exact hdepth

theorem reads_map {f : String → Reader} (hkind : t.kind? = some .string)
    (hdepth : ∀ s, (f s).depth = reader.depth) : Reads reader t (t.unescape.map f) := by
  cases hs : t.unescape with
  | error e => exact .inr ⟨e, hkind, hs, rfl⟩
  | ok s => exact reads_ok hkind (hdepth s)

theorem reads_beginValue (h : beginsValue t.kind? = true) (hdepth : frames.length = reader.depth) :
    Reads reader t (beginValue none frames t) := by
  unfold beginValue
  split
  · rename_i hkind
    exact reads_ok hkind (congrArg (· + 1) hdepth)
  · rename_i hkind
    exact reads_ok hkind (congrArg (· + 1) hdepth)
  · rename_i hkind
    exact reads_map hkind fun s => (depth_complete _ _).trans hdepth
  · rename_i hkind
    exact reads_complete hkind hdepth
  · rename_i hkind
    exact reads_complete hkind hdepth
  · rename_i hkind
    exact reads_complete hkind hdepth
  · rename_i hkind
    exact reads_complete hkind hdepth
  · unfold beginsValue at h
    split at h <;> contradiction

theorem reads_readKey {members : List (String × Value)} (h : t.kind? = some .string)
    (hdepth : outer.length + 1 = reader.depth) : Reads reader t (readKey members outer t) := by
  rw [readKey, if_pos h]
  exact reads_map h fun _ => hdepth

theorem reads_step (h : reader.admits t.kind? = true) : Reads reader t (reader.step none t) := by
  cases reader with
  | value frames => exact reads_beginValue h rfl
  | firstItem outer =>
    rw [step]
    split
    · exact reads_complete ‹_› rfl
    · rename_i hclose
      rw [admits, decide_eq_false hclose, Bool.false_or] at h
      exact reads_beginValue h rfl
  | firstKey outer =>
    rw [step]
    split
    · exact reads_complete ‹_› rfl
    · rename_i hclose
      rw [admits, decide_eq_false hclose, Bool.false_or, decide_eq_true_eq] at h
      exact reads_readKey h rfl
  | nextKey members outer => exact reads_readKey (of_decide_eq_true h) rfl
  | colon members key outer =>
    have hcolon := of_decide_eq_true h
    rw [step, if_pos hcolon]
    exact reads_ok hcolon rfl
  | afterItem items outer =>
    simp only [admits, Bool.or_eq_true, decide_eq_true_eq] at h
    rcases h with h | h
    · rw [step, h]
      exact reads_ok h rfl
    · rw [step, h]
      exact reads_complete h rfl
  | afterMember members outer =>
    simp only [admits, Bool.or_eq_true, decide_eq_true_eq] at h
    rcases h with h | h
    · rw [step, h]
      exact reads_ok h rfl
    · rw [step, h]
      exact reads_complete h rfl
  | done v => cases h

/-! ## 4. Limits -/

/-- A container may be opened wherever a value may begin, up to the limit. -/
theorem beginValue_limit :
    beginValue limit frames t = if t.opens = true ∧ limit = some frames.length then
      .error (.depthLimit t.span.start) else beginValue none frames t := by
  have hplain : t.opens = false → ∀ result : Except DecodeError Reader, result =
      if t.opens = true ∧ limit = some frames.length then .error (.depthLimit t.span.start)
      else result := by
    intro hopens result
    rw [hopens, if_neg fun h => Bool.false_ne_true h.1]
  unfold beginValue
  split
  · rw [Token.opens_of_kind ‹_›]
    simp [TokenKind.opens, openContainer]
  · rw [Token.opens_of_kind ‹_›]
    simp [TokenKind.opens, openContainer]
  · exact hplain (Token.opens_of_kind ‹_›) _
  · exact hplain (Token.opens_of_kind ‹_›) _
  · exact hplain (Token.opens_of_kind ‹_›) _
  · exact hplain (Token.opens_of_kind ‹_›) _
  · exact hplain (Token.opens_of_kind ‹_›) _
  · apply hplain
    unfold Token.opens
    cases hkind : t.kind? with
    | none => rfl
    | some kind => cases kind <;> first | rfl | contradiction

/-- A limit makes a difference only where a container is opened. -/
theorem step_of_admits (h : reader.admits t.kind? = true) :
    reader.step limit t = if t.opens = true ∧ limit = some reader.depth then
      .error (.depthLimit t.span.start) else reader.step none t := by
  -- The admitted kinds that begin no value open nothing.
  have hplain : ∀ {kind : TokenKind}, t.kind? = some kind → kind.opens = false →
      ¬ (t.opens = true ∧ limit = some reader.depth) := by
    intro kind hkind hopens hexcess
    rw [Token.opens_of_kind hkind, hopens] at hexcess
    cases hexcess.1
  cases reader with
  | value frames => exact beginValue_limit
  | firstItem outer =>
    rw [step, step]
    by_cases hclose : t.kind? = some .rightBracket
    · rw [if_pos hclose, if_pos hclose, if_neg (hplain hclose rfl)]
    · rw [if_neg hclose, if_neg hclose]
      exact beginValue_limit
  | firstKey outer =>
    simp only [admits, Bool.or_eq_true, decide_eq_true_eq] at h
    rcases h with h | h <;> exact (if_neg (hplain h rfl)).symm
  | nextKey members outer => exact (if_neg (hplain (of_decide_eq_true h) rfl)).symm
  | colon members key outer => exact (if_neg (hplain (of_decide_eq_true h) rfl)).symm
  | afterItem items outer =>
    simp only [admits, Bool.or_eq_true, decide_eq_true_eq] at h
    rcases h with h | h <;> exact (if_neg (hplain h rfl)).symm
  | afterMember members outer =>
    simp only [admits, Bool.or_eq_true, decide_eq_true_eq] at h
    rcases h with h | h <;> exact (if_neg (hplain h rfl)).symm
  | done v => cases h

theorem admits_of_step (h : reader.step limit t = .ok next) : reader.admits t.kind? = true := by
  by_contra hnot
  rw [step_of_not_admits (Bool.eq_false_of_not_eq_true hnot)] at h
  cases h

/-- What is accepted under a limit is accepted without one, and opens no container too many. -/
theorem step_eq_ok_iff : reader.step limit t = .ok next ↔
    reader.step none t = .ok next ∧ ¬ (t.opens = true ∧ limit = some reader.depth) := by
  constructor
  · intro h
    rw [step_of_admits (admits_of_step h)] at h
    split at h
    · cases h
    · exact ⟨h, ‹_›⟩
  · intro h
    rw [step_of_admits (admits_of_step h.1), if_neg h.2]
    exact h.1

/-- What is refused without a limit is refused for the same reason under one. -/
theorem step_eq_error (h : reader.step none t = .error e) : reader.step limit t = .error e := by
  cases hadmits : reader.admits t.kind? with
  | false =>
    rw [step_of_not_admits hadmits] at h ⊢
    exact h
  | true =>
    rw [step_of_admits hadmits, if_neg]
    · exact h
    · intro hexcess
      rcases reads_step hadmits with ⟨next, hok, _⟩ | ⟨_, hstring, _⟩
      · rw [hok] at h
        cases h
      · rw [Token.opens_of_kind hstring] at hexcess
        cases hexcess.1

/-- A token that is read changes the number of open containers by what it opens and closes. -/
theorem depth_step (h : reader.step limit t = .ok next) :
    next.depth + t.closes.toNat = reader.depth + t.opens.toNat := by
  rcases reads_step (admits_of_step h) with ⟨next', hok, hdepth⟩ | ⟨_, _, _, herror⟩
  · cases hok.symm.trans (step_eq_ok_iff.1 h).1
    exact hdepth
  · cases herror.symm.trans (step_eq_ok_iff.1 h).1

theorem depth_succ_iff (h : reader.step limit t = .ok next) :
    next.depth = reader.depth + 1 ↔ t.opens = true := by
  have hdepth := depth_step h
  cases hopens : t.opens with
  | false =>
    rw [hopens, Bool.toNat_false] at hdepth
    constructor
    · omega
    · exact fun hfalse => absurd hfalse Bool.false_ne_true
  | true =>
    rw [hopens, Token.closes_of_opens hopens] at hdepth
    exact iff_of_true hdepth rfl

end Reader

end JsonAutomata
