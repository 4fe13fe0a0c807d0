import JsonAutomata.Proofs.Json.Accepting
import JsonAutomata.Proofs.Json.Admitting

/-!
# The depth limit — where too many containers are open

`firstExcess` finds the first bracket that is opened while a number of brackets are open, by the
characters of a text alone: brackets count outside strings only.  A reader that keeps to the limit
runs like one without a limit, up to the token of that bracket, which it refuses
(`Reader.run_limit`).
-/

namespace JsonAutomata

open Grammar

/-! ## 1. Brackets of a text -/

inductive Place where
  | outside
  | inside
  | escaped

def IsOpening (c : Char) : Prop := c = '[' ∨ c = '\x7b'

def IsClosing (c : Char) : Prop := c = ']' ∨ c = '\x7d'

instance (c : Char) : Decidable (IsOpening c) := inferInstanceAs (Decidable (_ ∨ _))
instance (c : Char) : Decidable (IsClosing c) := inferInstanceAs (Decidable (_ ∨ _))

/-- The byte offset of the first bracket that is opened while `limit` brackets are open, in a text
that begins at an offset with `depth` brackets open. -/
def firstExcess (limit : Nat) : Place → (depth offset : Nat) → List Char → Option Nat
  | _, _, _, [] => none
  | .outside, depth, offset, c :: rest =>
    if IsOpening c then
      if depth = limit then some offset
      else firstExcess limit .outside (depth + 1) (offset + c.utf8Size) rest
    else if IsClosing c then firstExcess limit .outside (depth - 1) (offset + c.utf8Size) rest
    else if c = '"' then firstExcess limit .inside depth (offset + c.utf8Size) rest
    else firstExcess limit .outside depth (offset + c.utf8Size) rest
  | .inside, depth, offset, c :: rest =>
    if c = '"' then firstExcess limit .outside depth (offset + c.utf8Size) rest
    else if c = '\\' then firstExcess limit .escaped depth (offset + c.utf8Size) rest
    else firstExcess limit .inside depth (offset + c.utf8Size) rest
  | .escaped, depth, offset, c :: rest =>
    firstExcess limit .inside depth (offset + c.utf8Size) rest

section Scanning

variable {L depth offset : Nat} {w x rest : List Char} {c : Char}

/-- Characters that are neither brackets nor quotation marks are passed over. -/
theorem firstExcess_plain (hw : ∀ c ∈ w, ¬ IsOpening c ∧ ¬ IsClosing c ∧ c ≠ '"') :
    firstExcess L .outside depth offset (w ++ rest)
      = firstExcess L .outside depth (offset + Utf8.byteLength w) rest := by
  induction w generalizing offset with
  | nil => rfl
  | cons c w ih =>
    have ⟨hopening, hclosing, hquote⟩ := hw c List.mem_cons_self
    rw [List.cons_append, firstExcess, if_neg hopening, if_neg hclosing, if_neg hquote,
      ih fun d hd => hw d (List.mem_cons_of_mem c hd), Utf8.byteLength_cons, Nat.add_assoc]

theorem firstExcess_inside (hc : IsPlain c) :
    firstExcess L .inside depth offset (c :: rest)
      = firstExcess L .inside depth (offset + c.utf8Size) rest := by
  rw [firstExcess, if_neg hc.2.1, if_neg hc.2.2]

/-- The body of a string is passed over, brackets included. -/
theorem firstExcess_body (hx : RawBody x) :
    firstExcess L .inside depth offset (x ++ rest)
      = firstExcess L .inside depth (offset + Utf8.byteLength x) rest := by
  have hbackslash : ∀ {e : Char} {offset : Nat} {rest : List Char},
      firstExcess L .inside depth offset ('\\' :: e :: rest)
        = firstExcess L .inside depth (offset + '\\'.utf8Size + e.utf8Size) rest := by
    intro e offset rest
    rw [firstExcess, if_neg (by decide), if_pos rfl, firstExcess]
  induction hx generalizing offset with
  | nil => rfl
  | plain hc _ ih =>
    rw [List.cons_append, firstExcess_inside hc, ih, Utf8.byteLength_cons, Nat.add_assoc]
  | short _ _ ih =>
    rw [List.cons_append, List.cons_append, hbackslash, ih]
    simp only [Utf8.byteLength_cons, Nat.add_assoc]
  | unit ha hb hc hd _ ih =>
    simp only [List.cons_append]
    rw [hbackslash, firstExcess_inside (TokenKind.hex_isPlain ha),
      firstExcess_inside (TokenKind.hex_isPlain hb), firstExcess_inside (TokenKind.hex_isPlain hc),
      firstExcess_inside (TokenKind.hex_isPlain hd), ih]
    simp only [Utf8.byteLength_cons, Nat.add_assoc]

theorem firstExcess_opening (hc : IsOpening c) :
    firstExcess L .outside depth offset (c :: rest)
      = if depth = L then some offset
        else firstExcess L .outside (depth + 1) (offset + c.utf8Size) rest := by
  rw [firstExcess, if_pos hc]

theorem firstExcess_closing (hc : IsClosing c) :
    firstExcess L .outside depth offset (c :: rest)
      = firstExcess L .outside (depth - 1) (offset + c.utf8Size) rest := by
  have hnot : ¬ IsOpening c := by
    rcases hc with rfl | rfl <;> decide
  rw [firstExcess, if_neg hnot, if_pos hc]

theorem firstExcess_string (hx : RawBody x) :
    firstExcess L .outside depth offset ('"' :: (x ++ ['"']) ++ rest)
      = firstExcess L .outside depth (offset + Utf8.byteLength ('"' :: (x ++ ['"']))) rest := by
  have hquote : '"' :: (x ++ ['"']) ++ rest = '"' :: (x ++ '"' :: rest) := by simp
  rw [hquote, firstExcess, if_neg (by decide), if_neg (by decide), if_pos rfl,
    firstExcess_body hx, firstExcess, if_pos rfl]
  simp [Nat.add_assoc]

end Scanning

/-! ## 2. Brackets of a token -/

namespace TokenKind

def depthAfter (kind : TokenKind) (depth : Nat) : Nat :=
  if kind.opens then depth + 1 else if kind.closes then depth - 1 else depth

variable {kind : TokenKind} {run rest : List Char} {L depth offset : Nat}

/-- No character of the token is a bracket or a quotation mark. -/
theorem no_brackets (hrun : run ∈ kind.term.language) (hopens : kind.opens = Bool.false)
    (hcloses : kind.closes = Bool.false) (hstring : kind ≠ string) :
    ∀ c ∈ run, ¬ IsOpening c ∧ ¬ IsClosing c ∧ c ≠ '"' := by
  cases kind using byTerm with
  | string => exact absurd rfl hstring
  | number =>
    have hall : ∀ c ∈ number.followers, ¬ IsOpening c ∧ ¬ IsClosing c ∧ c ≠ '"' :=
      forall_mem_of_all (by decide)
    exact fun c hc => hall c (over_numberTerm.language_le hrun c hc)
  | space =>
    have hall : ∀ c ∈ space.followers, ¬ IsOpening c ∧ ¬ IsClosing c ∧ c ≠ '"' :=
      forall_mem_of_all (by decide)
    exact fun c hc => hall c (isBlank_iff.2 (over_spaceTerm.language_le hrun c hc))
  | literal kind hkind =>
    obtain rfl := Reader.eq_label_of_language hrun hkind
    have hall : ∀ k ∈ all, k.opens = Bool.false → k.closes = Bool.false →
        k.label.toList.all (fun c => ¬ IsOpening c ∧ ¬ IsClosing c ∧ c ≠ '"') = Bool.true := by
      decide
    exact forall_mem_of_all (hall kind (mem_all kind) hopens hcloses)

theorem exists_opening (hrun : run ∈ kind.term.language) (hopens : kind.opens = Bool.true) :
    ∃ c, IsOpening c ∧ run = [c] := by
  cases kind with
  | leftBracket => exact ⟨'[', .inl rfl, Reader.eq_label_of_language hrun (by decide)⟩
  | leftBrace => exact ⟨'\x7b', .inr rfl, Reader.eq_label_of_language hrun (by decide)⟩
  | _ => cases hopens

theorem exists_closing (hrun : run ∈ kind.term.language) (hcloses : kind.closes = Bool.true) :
    ∃ c, IsClosing c ∧ run = [c] := by
  cases kind with
  | rightBracket => exact ⟨']', .inl rfl, Reader.eq_label_of_language hrun (by decide)⟩
  | rightBrace => exact ⟨'\x7d', .inr rfl, Reader.eq_label_of_language hrun (by decide)⟩
  | _ => cases hcloses

/-- A token counts as one bracket or as none. -/
theorem firstExcess_token (hrun : run ∈ kind.term.language) :
    firstExcess L .outside depth offset (run ++ rest)
      = if kind.opens = Bool.true ∧ depth = L then some offset
        else firstExcess L .outside (kind.depthAfter depth) (offset + Utf8.byteLength run) rest := by
  cases hopens : kind.opens with
  | true =>
    obtain ⟨c, hc, rfl⟩ := exists_opening hrun hopens
    rw [List.singleton_append, firstExcess_opening hc, depthAfter, if_pos hopens]
    simp only [true_and]
    rfl
  | false =>
    rw [if_neg (by simp), depthAfter, hopens, if_neg Bool.false_ne_true]
    cases hcloses : kind.closes with
    | true =>
      obtain ⟨c, hc, rfl⟩ := exists_closing hrun hcloses
      rw [List.singleton_append, firstExcess_closing hc, if_pos rfl]
      rfl
    | false =>
      rw [if_neg Bool.false_ne_true]
      by_cases hstring : kind = string
      · obtain rfl := hstring
        obtain ⟨x, rfl, hx⟩ := mem_language_string.1 hrun
        exact firstExcess_string hx
      · exact firstExcess_plain (no_brackets hrun hopens hcloses hstring)

end TokenKind

namespace Reader

/-! ## 3. Readers with and without a limit -/

variable {reader next : Reader} {kind : TokenKind} {text : List Char} {L offset : Nat}
  {tokens : List Token} {t : Token}

theorem depth_step_kind {limit : Option Nat} (hkind : t.kind? = some kind)
    (hstep : reader.step limit t = .ok next) : next.depth = kind.depthAfter reader.depth := by
  have hdepth := depth_step hstep
  rw [Token.opens_of_kind hkind, Token.closes_of_kind hkind] at hdepth
  cases kind with
  | rightBrace => exact Nat.eq_sub_of_add_eq hdepth
  | rightBracket => exact Nat.eq_sub_of_add_eq hdepth
  | _ => exact hdepth

/-- A text that is read without a limit is read alike under a limit, unless a bracket exceeds it;
then the first such bracket is reported. -/
theorem run_limit (hmunch : JsonMunch offset text tokens)
    (hrun : reader.run none (Decoder.significant tokens) = .ok next) :
    reader.run (some L) (Decoder.significant tokens)
      = match firstExcess L .outside reader.depth offset text with
        | none => .ok next
        | some place => .error (.depthLimit place) := by
  -- The reader keeps the number of open brackets that the scan of the characters counts.
  induction hmunch generalizing reader with
  | done => exact hrun
  | @token offset run rest label tokens hne hlongest hlabel htail ih =>
    obtain ⟨kind, rfl, hlanguage⟩ := TokenKind.earliest_iff.1 hlabel
    rw [TokenKind.firstExcess_token hlanguage]
    by_cases hspace : kind = .space
    · obtain rfl := hspace
      rw [significant_cons_space (kind?_ofRun run .space offset)] at hrun ⊢
      rw [if_neg fun h => Bool.false_ne_true h.1]
      exact ih hrun
    · rw [significant_ofRun kind hspace] at hrun ⊢
      obtain ⟨middle, hstep, hrest⟩ := run_cons_eq_ok_iff.1 hrun
      have hkind := kind?_ofRun run kind offset
      rw [Reader.run, step_of_admits (admits_of_step hstep), Token.opens_of_kind hkind, hstep,
        ← depth_step_kind hkind hstep]
      by_cases hexcess : kind.opens = Bool.true ∧ reader.depth = L
      · rw [if_pos hexcess, if_pos ⟨hexcess.1, congrArg some hexcess.2.symm⟩]
        rfl
      · rw [if_neg hexcess, if_neg fun h => hexcess ⟨h.1, (Option.some.inj h.2).symm⟩]
        exact ih hrest

end Reader

/-- An element of the grammar is decoded under a limit, unless a bracket exceeds it; then the first
such bracket is reported. -/
theorem decodeWithin_of_derives {n L : Nat} {text : List Char} {v : Value}
    (h : Derives n (.element v) text) :
    decodeWithin (some L) text
      = match firstExcess L .outside 0 0 text with
        | none => .ok v
        | some place => .error (.depthLimit place) := by
  obtain ⟨tokens, hmunch, hread⟩ := h.exists_tokens
  have hrun := Reader.read_eq_ok_iff.1 (hread none nofun)
  have hlimited := Reader.run_limit (L := L) hmunch hrun
  rw [decodeWithin_eq_of_munch hmunch, Reader.read, hlimited, Reader.start, Reader.depth,
    List.length_nil]
  cases firstExcess L .outside 0 0 text with
  | none => rfl
  | some place => rfl

end JsonAutomata
