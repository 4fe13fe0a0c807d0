import JsonAutomata.Json.Cursor
import JsonAutomata.Proofs.Json.Strings

/-!
# Cursors and offsets

A cursor and the byte offsets at which the text is cut keep in step on every text: both find the
same characters and the same errors as resolving the escapes does (`unescapeTraced_agrees`).
-/

namespace JsonAutomata

open Grammar

namespace Utf8

/-- A character of the text begins at the byte, or the text ends there. -/
def IsBoundary (n : Nat) (cs : List Char) : Prop :=
  ∃ before after, cs = before ++ after ∧ byteLength before = n

end Utf8

namespace Unescape

/-- The text is cut between characters, and the cursor skips as many bytes as characters and stops
between characters. -/
def Move.InStep (text : List Char) : Move → Prop
  | cut place => Utf8.IsBoundary place text
  | skip count start stop => stop = start + count ∧ Utf8.IsBoundary stop text

variable {base place n : Nat} {text before front rest x w : List Char} {c d e : Char}
  {fault : Fault} {moves : List Move} {next : Cursor}

/-! ## 1. Digits -/

theorem utf8Size_of_isHex (h : IsHex c) : c.utf8Size = 1 := by
  have hall : ∀ c ∈ "0123456789abcdefABCDEF".toList, c.utf8Size = 1 := forall_mem_of_all (by decide)
  exact hall c h

theorem isHex_of_hexNumber? {digits : List Char} (h : hexNumber? digits = some n) :
    ∀ c ∈ digits, IsHex c := by
  have hfold : ∀ (digits : List Char) (m : Nat),
      digits.foldlM (fun n c => (hexValue? c).map (16 * n + ·)) m = some n →
        ∀ c ∈ digits, IsHex c := by
    intro digits
    induction digits with
    | nil => exact fun _ _ c hc => absurd hc List.not_mem_nil
    | cons d digits ih =>
      intro m hm c hc
      rw [List.foldlM_cons, Option.bind_eq_bind, Option.bind_eq_some_iff] at hm
      rcases hm with ⟨k, hk, htail⟩
      rcases Option.map_eq_some_iff.1 hk with ⟨v, hv, -⟩
      rcases List.mem_cons.1 hc with rfl | hc
      · exact isHex_iff.2 ⟨v, hexValue?_eq_some_iff.1 hv⟩
      · exact ih k htail c hc
  exact hfold digits 0 h

theorem byteLength_of_isHex (h : ∀ c ∈ w, IsHex c) : Utf8.byteLength w = w.length := by
  induction w with
  | nil => rfl
  | cons c w ih =>
    have hc := utf8Size_of_isHex (h c List.mem_cons_self)
    have hw := ih fun c hc => h c (List.mem_cons_of_mem _ hc)
    rw [Utf8.byteLength_cons, hc, hw, List.length_cons, Nat.add_comm]

/-- Four bytes spell a unit if and only if four characters do. -/
theorem hexUnit_eq (place : Nat) (rest : List Char) :
    hexUnit place rest = ⟨.ok (unit? ('\\' :: 'u' :: rest)), [.cut (place + 4)]⟩ := by
  have hunit : ((Utf8.splitAt? 4 rest).bind fun parts => hexNumber? parts.1)
      = unit? ('\\' :: 'u' :: rest) := by
    ext n
    rw [Option.bind_eq_some_iff]
    constructor
    · -- Four bytes could be fewer than four characters, but digits have one byte each.
      rintro ⟨⟨digits, x⟩, hsplit, hn⟩
      rcases Utf8.splitAt?_eq_some_iff.1 hsplit with ⟨rfl, hbytes⟩
      have hlength : digits.length = 4 :=
        (byteLength_of_isHex (isHex_of_hexNumber? hn)).symm.trans hbytes
      rcases List.length_eq_four.1 hlength with ⟨h1, h2, h3, h4, rfl⟩
      exact hn
    · intro hn
      unfold unit? at hn
      split at hn
      · rename_i h1 h2 h3 h4 x heq
        cases heq
        refine ⟨([h1, h2, h3, h4], x), Utf8.splitAt?_eq_some_iff.2 ⟨rfl, ?_⟩, hn⟩
        exact byteLength_of_isHex (isHex_of_hexNumber? hn)
      · cases hn
  rw [hexUnit, hunit]

theorem exists_shortEscape (he : e ∈ "\"\\/bfnrt".toList) : ∃ d, (e, d) ∈ shortEscapes := by
  have hall : ∀ e ∈ "\"\\/bfnrt".toList, (short? e).isSome = true := forall_mem_of_all (by decide)
  rcases Option.isSome_iff_exists.1 (hall e he) with ⟨d, hd⟩
  exact ⟨d, mem_of_short? hd⟩

/-! ## 2. Cuts and skips -/

variable {α β : Type} {assumed : Prop} {a : α} {r : Except Failure β} {y : List Char}

/-- A computation comes to a result, and if the assumption holds, all its moves are in step with
the text. -/
def Traced.Yields (text : List Char) (assumed : Prop) (traced : Traced α)
    (result : Except Failure α) : Prop :=
  ∃ moves, traced = ⟨result, moves⟩ ∧ (assumed → ∀ m ∈ moves, m.InStep text)

theorem Traced.Yields.bind {traced : Traced α} {f : α → Traced β}
    (h : traced.Yields text assumed (.ok a)) (hf : (f a).Yields text assumed r) :
    (traced >>= f).Yields text assumed r := by
  rcases h with ⟨before, rfl, hbefore⟩
  rcases hf with ⟨after, hresult, hafter⟩
  refine ⟨before ++ after, bind_eq_of_eq hresult, fun hassumed m hm => ?_⟩
  rcases List.mem_append.1 hm with hm | hm
  · exact hbefore hassumed m hm
  · exact hafter hassumed m hm

theorem yields_pure (a : α) : (pure a : Traced α).Yields text assumed (.ok a) :=
  ⟨[], rfl, fun _ _ hm => absurd hm List.not_mem_nil⟩

theorem isBoundary_append (before front rest : List Char) :
    Utf8.IsBoundary (Utf8.byteLength before + Utf8.byteLength front) (before ++ (front ++ rest)) :=
  ⟨before ++ front, rest, (List.append_assoc before front rest).symm,
    Utf8.byteLength_append before front⟩

theorem yields_cut? (before front rest : List Char) :
    (cut? (before ++ (front ++ rest)) (Utf8.byteLength before + Utf8.byteLength front)).Yields
      (before ++ (front ++ rest)) assumed (.ok (some rest)) := by
  refine ⟨[.cut (Utf8.byteLength before + Utf8.byteLength front)], ?_, fun _ m hm => ?_⟩
  · rw [cut?, ← List.append_assoc, ← Utf8.byteLength_append, Utf8.splitAt?_append]
    rfl
  · rcases List.mem_singleton.1 hm with rfl
    exact isBoundary_append before front rest

theorem yields_cut (before front rest : List Char) :
    (cut (before ++ (front ++ rest)) (Utf8.byteLength before + Utf8.byteLength front)).Yields
      (before ++ (front ++ rest)) assumed (.ok rest) :=
  (yields_cut? before front rest).bind (yields_pure rest)

theorem yields_refuse (before rest : List Char) (length : Nat) (fault : Fault) :
    (refuse base (before ++ rest) (Utf8.byteLength before) length fault : Traced α).Yields
      (before ++ rest) assumed (.error (refusal fault length (base + Utf8.byteLength before) rest)) :=
  (yields_cut before [] rest).bind ⟨[], rfl, fun _ _ hm => absurd hm List.not_mem_nil⟩

theorem yields_hexUnit (h : assumed → Utf8.IsBoundary (place + 4) text) :
    (hexUnit place rest).Yields text assumed (.ok (unit? ('\\' :: 'u' :: rest))) := by
  refine ⟨_, hexUnit_eq place rest, fun hassumed m hm => ?_⟩
  rcases List.mem_singleton.1 hm with rfl
  exact h hassumed

theorem yields_skip {count : Nat} (hlength : w.length = count) (hbytes : Utf8.byteLength w = count)
    (h : Utf8.IsBoundary (place + count) text) :
    (Cursor.skip count ⟨place, w ++ x⟩).Yields text assumed (.ok ⟨place + count, x⟩) := by
  have hnext : Cursor.advance count ⟨place, w ++ x⟩ = ⟨place + count, x⟩ := by
    rw [Cursor.advance, List.take_left' hlength, List.drop_left' hlength, hbytes]
  refine ⟨[.skip count place (place + count)], ?_, fun _ m hm => ?_⟩
  · rw [Cursor.skip, hnext]
  · rcases List.mem_singleton.1 hm with rfl
    exact ⟨rfl, h⟩

/-! ## 3. Units -/

theorem unit?_eq_none (h : ∀ h1 h2 h3 h4 x, y = '\\' :: 'u' :: h1 :: h2 :: h3 :: h4 :: x → False) :
    unit? y = none := by
  unfold unit?
  split
  · exact absurd rfl (h _ _ _ _ _)
  · rfl

theorem unit?_of_hexUnit (hn : HexUnit w n) : unit? ('\\' :: 'u' :: (w ++ x)) = some n := by
  rcases hn.exists_hex with ⟨h1, h2, h3, h4, rfl, -⟩
  exact hexNumber?_eq_some_iff.2 hn

theorem length_of_hexUnit (hn : HexUnit w n) : w.length = 4 ∧ Utf8.byteLength w = 4 := by
  rcases hn.exists_hex with ⟨h1, h2, h3, h4, rfl, ha, hb, hc, hd⟩
  refine ⟨rfl, byteLength_of_isHex ?_⟩
  simp [ha, hb, hc, hd]

theorem length_escape (hn : HexUnit w n) :
    ('\\' :: 'u' :: w).length = 6 ∧ Utf8.byteLength ('\\' :: 'u' :: w) = 6 := by
  rw [List.length_cons, List.length_cons, Utf8.byteLength_cons, Utf8.byteLength_cons,
    (length_of_hexUnit hn).1, (length_of_hexUnit hn).2]
  exact ⟨rfl, rfl⟩

/-- The end of an escape. -/
theorem isBoundary_escape (hn : HexUnit w n) (before front x : List Char) :
    Utf8.IsBoundary (Utf8.byteLength before + Utf8.byteLength front + 6)
      (before ++ (front ++ '\\' :: 'u' :: (w ++ x))) := by
  have h := isBoundary_append before (front ++ '\\' :: 'u' :: w) x
  rw [Utf8.byteLength_append, (length_escape hn).2, List.append_assoc, ← Nat.add_assoc] at h
  exact h

theorem exists_hexUnit_of_raw (h : RawBody ('\\' :: 'u' :: y)) :
    ∃ w x n, y = w ++ x ∧ HexUnit w n := by
  cases h with
  | plain hplain => exact absurd hplain not_isPlain_backslash
  | short he => exact absurd he (by decide)
  | @unit h1 h2 h3 h4 x ha hb hc hd =>
    rcases exists_hexUnit ha hb hc hd with ⟨n, hn⟩
    exact ⟨[h1, h2, h3, h4], x, n, rfl, hn⟩

theorem yields_lowUnit (before front : List Char) (hraw : assumed → RawBody y) :
    (lowUnit (before ++ (front ++ y)) (Utf8.byteLength before + Utf8.byteLength front)).Yields
      (before ++ (front ++ y)) assumed (.ok ((unit? y).filter Utf16.isLow)) := by
  apply (yields_cut? before front y).bind
  split
  · rename_i z heq
    cases heq
    refine (yields_hexUnit fun hassumed => ?_).bind (yields_pure _)
    rcases exists_hexUnit_of_raw (hraw hassumed) with ⟨w, x, n, rfl, hn⟩
    exact isBoundary_escape hn before front x
  · rename_i hshape
    rw [unit?_eq_none fun h1 h2 h3 h4 x heq => hshape _ (congrArg some heq)]
    exact yields_pure none

/-- The text is cut in step up to the unit; what is done with the unit is done behind its escape. -/
theorem yields_unitEscape {result : Except Failure (Char × Cursor)} (hn : HexUnit w n)
    (before x : List Char)
    (h : (unitCharacter base (before ++ '\\' :: 'u' :: (w ++ x)) (Utf8.byteLength before) n
      ⟨Utf8.byteLength before + 6, x⟩).Yields (before ++ '\\' :: 'u' :: (w ++ x)) assumed result) :
    (nextChar base (before ++ '\\' :: 'u' :: (w ++ x)) (Utf8.byteLength before) '\\'
      ('u' :: (w ++ x))).Yields (before ++ '\\' :: 'u' :: (w ++ x)) assumed result := by
  have hstop : Utf8.IsBoundary (Utf8.byteLength before + 2 + 4)
      (before ++ '\\' :: 'u' :: (w ++ x)) := isBoundary_escape hn before [] x
  rcases length_of_hexUnit hn with ⟨hlength, hbytes⟩
  apply (yields_cut before ['\\', 'u'] (w ++ x)).bind
  apply (yields_hexUnit fun _ => hstop).bind
  rw [unit?_of_hexUnit hn]
  exact (yields_skip hlength hbytes hstop).bind h

theorem lt_of_hexUnit (hn : HexUnit w n) : n < 0x10000 := by
  rcases hn with ⟨a, b, c, d, i, j, k, l, -, rfl, hi, hj, hk, hl⟩
  have hi := hi.lt
  have hj := hj.lt
  have hk := hk.lt
  have hl := hl.lt
  omega

theorem not_highSurrogate (hlow : LowSurrogate n) : ¬ HighSurrogate n := by
  unfold HighSurrogate
  unfold LowSurrogate at hlow
  omega

theorem isValidChar_of_hexUnit (hn : HexUnit w n) (hhigh : ¬ HighSurrogate n)
    (hlow : ¬ LowSurrogate n) : n.isValidChar := by
  have hlt := lt_of_hexUnit hn
  unfold HighSurrogate at hhigh
  unfold LowSurrogate at hlow
  unfold Nat.isValidChar
  omega

theorem not_isValidChar (hlow : LowSurrogate n) : ¬ n.isValidChar := by
  unfold LowSurrogate at hlow
  unfold Nat.isValidChar
  omega

theorem isValidChar_combine {m : Nat} (hhigh : HighSurrogate n) (hlow : LowSurrogate m) :
    (Utf16.combine n m).isValidChar := by
  unfold HighSurrogate at hhigh
  unfold LowSurrogate at hlow
  unfold Nat.isValidChar Utf16.combine
  omega

theorem yields_character {code : Nat} {cursor : Cursor} (h : code.isValidChar) :
    (character base text place code cursor).Yields text assumed
      (.ok (Char.ofNat code, cursor)) := by
  rw [character, if_pos h]
  exact yields_pure _

theorem yields_single (hn : HexUnit w n) (hhigh : ¬ HighSurrogate n) (hlow : ¬ LowSurrogate n)
    (before x : List Char) :
    (nextChar base (before ++ '\\' :: 'u' :: (w ++ x)) (Utf8.byteLength before) '\\'
      ('u' :: (w ++ x))).Yields (before ++ '\\' :: 'u' :: (w ++ x)) assumed
      (.ok (Char.ofNat n, ⟨Utf8.byteLength before + 6, x⟩)) := by
  apply yields_unitEscape hn before x
  rw [unitCharacter, if_neg (isHigh_iff.not.2 hhigh)]
  exact yields_character (isValidChar_of_hexUnit hn hhigh hlow)

theorem yields_lone (hn : HexUnit w n) (hlow : LowSurrogate n) (before x : List Char) :
    (nextChar base (before ++ '\\' :: 'u' :: (w ++ x)) (Utf8.byteLength before) '\\'
      ('u' :: (w ++ x))).Yields (before ++ '\\' :: 'u' :: (w ++ x)) assumed
      (.error (refusal .noCharacter 6 (base + Utf8.byteLength before)
        ('\\' :: 'u' :: (w ++ x)))) := by
  apply yields_unitEscape hn before x
  rw [unitCharacter, if_neg (isHigh_iff.not.2 (not_highSurrogate hlow)), character,
    if_neg (not_isValidChar hlow)]
  exact yields_refuse before _ 6 .noCharacter

/-- Where the partner of a high surrogate is missing or wrong. -/
theorem yields_unpaired (hn : HexUnit w n) (hhigh : HighSurrogate n) (before : List Char)
    (hx : (unit? x).filter Utf16.isLow = none) (hraw : assumed → RawBody x) :
    (nextChar base (before ++ '\\' :: 'u' :: (w ++ x)) (Utf8.byteLength before) '\\'
      ('u' :: (w ++ x))).Yields (before ++ '\\' :: 'u' :: (w ++ x)) assumed
      (.error (refusal .unpairedHigh 12 (base + Utf8.byteLength before)
        ('\\' :: 'u' :: (w ++ x)))) := by
  have hlow := yields_lowUnit before ('\\' :: 'u' :: w) hraw
  rw [(length_escape hn).2, hx] at hlow
  apply yields_unitEscape hn before x
  rw [unitCharacter, if_pos (isHigh_iff.2 hhigh)]
  exact hlow.bind (yields_refuse before _ 12 .unpairedHigh)

theorem yields_pair {m : Nat} {v : List Char} (hn : HexUnit w n) (hm : HexUnit v m)
    (hhigh : HighSurrogate n) (hlow : LowSurrogate m) (before x : List Char)
    (hraw : assumed → RawBody ('\\' :: 'u' :: (v ++ x))) :
    (nextChar base (before ++ '\\' :: 'u' :: (w ++ '\\' :: 'u' :: (v ++ x)))
      (Utf8.byteLength before) '\\' ('u' :: (w ++ '\\' :: 'u' :: (v ++ x)))).Yields
      (before ++ '\\' :: 'u' :: (w ++ '\\' :: 'u' :: (v ++ x))) assumed
      (.ok (Char.ofNat (Utf16.combine n m), ⟨Utf8.byteLength before + 6 + 6, x⟩)) := by
  have hread := yields_lowUnit before ('\\' :: 'u' :: w) hraw
  have hfilter : (some m).filter Utf16.isLow = some m := Option.filter_some_pos (isLow_iff.2 hlow)
  rw [(length_escape hn).2, unit?_of_hexUnit hm, hfilter] at hread
  have hstop : Utf8.IsBoundary (Utf8.byteLength before + 6 + 6)
      (before ++ '\\' :: 'u' :: (w ++ '\\' :: 'u' :: (v ++ x))) := by
    have h := isBoundary_escape hm before ('\\' :: 'u' :: w) x
    rw [(length_escape hn).2] at h
    exact h
  apply yields_unitEscape hn before
  rw [unitCharacter, if_pos (isHigh_iff.2 hhigh)]
  apply hread.bind
  apply (yields_skip (length_escape hm).1 (length_escape hm).2 hstop).bind
  exact yields_character (isValidChar_combine hhigh hlow)

/-! ## 4. Other characters -/

theorem yields_of_ne (hc : c ≠ '\\') : (nextChar base text place c rest).Yields text assumed
    (.ok (c, ⟨place + c.utf8Size, rest⟩)) := by
  have hnext : nextChar base text place c rest = pure (c, ⟨place + c.utf8Size, rest⟩) := if_pos hc
  rw [hnext]
  exact yields_pure _

theorem yields_short (he : short? e = some d) :
    (nextChar base text place '\\' (e :: rest)).Yields text assumed
      (.ok (d, ⟨place + 2, rest⟩)) := by
  have hsize : ∀ p ∈ shortEscapes, p.1.utf8Size = 1 := by decide
  have hne : e ≠ 'u' := by
    rintro rfl
    cases he
  have hnext : nextChar base text place '\\' (e :: rest)
      = pure (d, ⟨place + 1 + e.utf8Size, rest⟩) := by
    rw [nextChar, if_neg (not_not.2 rfl), he]
    exact hne
  rw [hnext, hsize (e, d) (mem_of_short? he)]
  exact yields_pure _

theorem yields_unknown (hne : e ≠ 'u') (he : short? e = none) :
    (nextChar base (before ++ '\\' :: e :: rest) (Utf8.byteLength before) '\\'
      (e :: rest)).Yields (before ++ '\\' :: e :: rest) assumed
      (.error (refusal .unknownEscape 2 (base + Utf8.byteLength before)
        ('\\' :: e :: rest))) := by
  have hnext : nextChar base (before ++ '\\' :: e :: rest) (Utf8.byteLength before) '\\'
      (e :: rest) = refuse base (before ++ '\\' :: e :: rest) (Utf8.byteLength before) 2
        .unknownEscape := by
    rw [nextChar, if_neg (not_not.2 rfl), he]
    exact hne
  rw [hnext]
  exact yields_refuse before _ 2 .unknownEscape

theorem yields_malformed (h : unit? ('\\' :: 'u' :: rest) = none) (hassumed : ¬ assumed) :
    (nextChar base (before ++ '\\' :: 'u' :: rest) (Utf8.byteLength before) '\\'
      ('u' :: rest)).Yields (before ++ '\\' :: 'u' :: rest) assumed
      (.error (refusal .malformedUnit 6 (base + Utf8.byteLength before)
        ('\\' :: 'u' :: rest))) := by
  apply (yields_cut before ['\\', 'u'] rest).bind
  apply (yields_hexUnit fun ha => absurd ha hassumed).bind
  rw [h]
  exact yields_refuse before _ 6 .malformedUnit

/-! ## 5. Whole texts -/

theorem readFrom_of_ok (h : nextChar base text place c rest = ⟨.ok (d, next), moves⟩) :
    readFrom base text ⟨place, c :: rest⟩ = ⟨(readFrom base text next).result.map (d :: ·),
      moves ++ (readFrom base text next).moves⟩ := by
  rw [readFrom]
  split
  · rename_i heq
    rw [h] at heq
    cases heq
  · rename_i heq
    rw [h] at heq
    cases heq
    rfl

theorem readFrom_of_error {failure : Failure}
    (h : nextChar base text place c rest = ⟨.error failure, moves⟩) :
    readFrom base text ⟨place, c :: rest⟩ = ⟨.error failure, moves⟩ := by
  rw [readFrom]
  split
  · rename_i heq
    rw [h] at heq
    cases heq
    rfl
  · rename_i heq
    rw [h] at heq
    cases heq

theorem mapError_map {ε ε' α β : Type} (e : Except ε α) (f : α → β) (g : ε → ε') :
    (e.map f).mapError g = (e.mapError g).map f := by
  cases e <;> rfl

/-- Reading with a cursor comes to what resolving comes to.  If the text matches the string pattern,
offsets and cursor keep in step, and errors are found with surrogates only. -/
structure Follows (text rest : List Char) (read : Traced (List Char))
    (result : Except DecodeError (List Char)) : Prop where
  agrees : read.result.mapError Failure.error? = result.mapError some
  inStep : RawBody rest → ∀ m ∈ read.moves, m.InStep text
  surrogate : RawBody rest → ∀ failure, read.result = .error failure →
    ∃ error, failure = .refused .unpairedHigh error ∨ failure = .refused .noCharacter error

/-- Reading on behind the characters that have been read. -/
abbrev FollowsBehind (base : Nat) (before rest : List Char)
    (result : Except DecodeError (List Char)) : Prop :=
  Follows (before ++ rest) rest
    (readFrom base (before ++ rest) ⟨Utf8.byteLength before, rest⟩) result

variable {result : Except DecodeError (List Char)}

theorem Follows.cons {k : Nat} (front : List Char) (hfront : c :: rest = front ++ x)
    (hk : Utf8.byteLength front = k)
    (hread : (nextChar base (before ++ c :: rest) (Utf8.byteLength before) c rest).Yields
      (before ++ c :: rest) (RawBody (c :: rest)) (.ok (d, ⟨Utf8.byteLength before + k, x⟩)))
    (hraw : RawBody (c :: rest) → RawBody x) (h : FollowsBehind base (before ++ front) x result) :
    FollowsBehind base before (c :: rest) (result.map (d :: ·)) := by
  rcases hread with ⟨moves, hread, hmoves⟩
  rw [FollowsBehind, List.append_assoc, ← hfront, Utf8.byteLength_append, hk] at h
  rw [FollowsBehind, readFrom_of_ok hread]
  generalize readFrom base (before ++ c :: rest) ⟨Utf8.byteLength before + k, x⟩ = tail at h ⊢
  rcases tail with ⟨tail, tailMoves⟩
  refine ⟨?_, fun hbody m hm => ?_, fun hbody failure hfailure => ?_⟩
  · rw [mapError_map, mapError_map]
    exact congrArg (Except.map (d :: ·)) h.agrees
  · rcases List.mem_append.1 hm with hm | hm
    · exact hmoves hbody m hm
    · exact h.inStep (hraw hbody) m hm
  · exact h.surrogate (hraw hbody) failure (map_eq_error_iff.1 hfailure)

theorem Follows.refused {error : DecodeError}
    (hread : (nextChar base text place c rest).Yields text (RawBody (c :: rest))
      (.error (.refused fault error)))
    (hfault : RawBody (c :: rest) → fault = .unpairedHigh ∨ fault = .noCharacter) :
    Follows text (c :: rest) (readFrom base text ⟨place, c :: rest⟩) (.error error) := by
  rcases hread with ⟨moves, hread, hmoves⟩
  rw [readFrom_of_error hread]
  refine ⟨rfl, hmoves, fun hraw failure hfailure => ?_⟩
  cases hfailure
  rcases hfault hraw with rfl | rfl
  · exact ⟨error, .inl rfl⟩
  · exact ⟨error, .inr rfl⟩

theorem follows_nil : FollowsBehind base before [] (.ok []) := by
  rw [FollowsBehind, readFrom]
  refine ⟨rfl, fun _ m hm => absurd hm List.not_mem_nil, fun _ failure hfailure => ?_⟩
  cases hfailure

theorem byteLength_plain (c : Char) : Utf8.byteLength [c] = c.utf8Size :=
  Nat.add_zero _

theorem follows_plain (hc : c ≠ '\\') (h : FollowsBehind base (before ++ [c]) rest result) :
    FollowsBehind base before (c :: rest) (result.map (c :: ·)) :=
  Follows.cons [c] rfl (byteLength_plain c) (yields_of_ne hc) (fun hraw => (hraw.of_plain hc).2) h

theorem byteLength_short (he : short? e = some d) : Utf8.byteLength ['\\', e] = 2 := by
  have hsize : ∀ p ∈ shortEscapes, Utf8.byteLength ['\\', p.1] = 2 := by decide
  exact hsize (e, d) (mem_of_short? he)

theorem follows_short (hne : e ≠ 'u') (he : short? e = some d)
    (h : FollowsBehind base (before ++ ['\\', e]) rest result) :
    FollowsBehind base before ('\\' :: e :: rest) (result.map (d :: ·)) :=
  Follows.cons ['\\', e] rfl (byteLength_short he) (yields_short he)
    (fun hraw => hraw.of_short hne) h

theorem not_rawBody_unknown (hne : e ≠ 'u') (he : short? e = none) :
    ¬ RawBody ('\\' :: e :: rest) := by
  intro hraw
  cases hraw with
  | plain hplain => exact not_isPlain_backslash hplain
  | short hmem =>
    rcases exists_shortEscape hmem with ⟨d, hd⟩
    rw [short?_of_mem hd] at he
    cases he
  | unit => exact hne rfl

theorem follows_unknown (hne : e ≠ 'u') (he : short? e = none) :
    FollowsBehind base before ('\\' :: e :: rest)
      (invalid ('\\' :: e :: rest) 2 (base + Utf8.byteLength before)) :=
  Follows.refused (yields_unknown hne he) fun hraw => absurd hraw (not_rawBody_unknown hne he)

theorem not_rawBody_backslash : ¬ RawBody ['\\'] := by
  intro hraw
  cases hraw with
  | plain hplain => exact not_isPlain_backslash hplain

theorem follows_backslash : FollowsBehind base before ['\\']
    (invalid ['\\'] 2 (base + Utf8.byteLength before)) := by
  have hread : (nextChar base (before ++ ['\\']) (Utf8.byteLength before) '\\' []).Yields
      (before ++ ['\\']) (RawBody ['\\']) _ := yields_refuse before ['\\'] 2 .unknownEscape
  exact Follows.refused hread fun hraw => absurd hraw not_rawBody_backslash

theorem follows_malformed (h : unit? ('\\' :: 'u' :: rest) = none) :
    FollowsBehind base before ('\\' :: 'u' :: rest)
      (invalid ('\\' :: 'u' :: rest) 6 (base + Utf8.byteLength before)) := by
  have hraw : ¬ RawBody ('\\' :: 'u' :: rest) := by
    intro hraw
    rcases exists_hexUnit_of_raw hraw with ⟨w, x, n, rfl, hn⟩
    rw [unit?_of_hexUnit hn] at h
    cases h
  exact Follows.refused (yields_malformed h hraw) fun h => absurd h hraw

theorem rawBody_of_hexUnit (hn : HexUnit w n) (hraw : RawBody ('\\' :: 'u' :: (w ++ x))) :
    RawBody x := by
  rcases hn.exists_hex with ⟨h1, h2, h3, h4, rfl, -⟩
  exact hraw.of_unit

theorem follows_single (hn : HexUnit w n) (hhigh : ¬ HighSurrogate n) (hlow : ¬ LowSurrogate n)
    (h : FollowsBehind base (before ++ '\\' :: 'u' :: w) x result) :
    FollowsBehind base before ('\\' :: 'u' :: (w ++ x)) (andThen n result) :=
  Follows.cons ('\\' :: 'u' :: w) rfl (length_escape hn).2 (yields_single hn hhigh hlow before x)
    (rawBody_of_hexUnit hn) h

theorem follows_lone (hn : HexUnit w n) (hlow : LowSurrogate n) :
    FollowsBehind base before ('\\' :: 'u' :: (w ++ x))
      (invalid ('\\' :: 'u' :: (w ++ x)) 6 (base + Utf8.byteLength before)) :=
  Follows.refused (yields_lone hn hlow before x) fun _ => .inr rfl

theorem follows_unpaired (hn : HexUnit w n) (hhigh : HighSurrogate n)
    (hx : (unit? x).filter Utf16.isLow = none) :
    FollowsBehind base before ('\\' :: 'u' :: (w ++ x))
      (invalid ('\\' :: 'u' :: (w ++ x)) 12 (base + Utf8.byteLength before)) :=
  Follows.refused (yields_unpaired hn hhigh before hx (rawBody_of_hexUnit hn)) fun _ => .inl rfl

section Pairs

variable {m : Nat} {v : List Char}

theorem byteLength_pair (hn : HexUnit w n) (hm : HexUnit v m) :
    Utf8.byteLength ('\\' :: 'u' :: (w ++ '\\' :: 'u' :: v)) = 12 := by
  have h := Utf8.byteLength_append ('\\' :: 'u' :: w) ('\\' :: 'u' :: v)
  rw [(length_escape hn).2, (length_escape hm).2] at h
  exact h

theorem follows_pair (hn : HexUnit w n) (hm : HexUnit v m) (hhigh : HighSurrogate n)
    (hlow : LowSurrogate m)
    (h : FollowsBehind base (before ++ '\\' :: 'u' :: (w ++ '\\' :: 'u' :: v)) x result) :
    FollowsBehind base before ('\\' :: 'u' :: (w ++ '\\' :: 'u' :: (v ++ x)))
      (andThen (Utf16.combine n m) result) := by
  have hfront : '\\' :: 'u' :: (w ++ '\\' :: 'u' :: (v ++ x))
      = ('\\' :: 'u' :: (w ++ '\\' :: 'u' :: v)) ++ x := by
    simp only [List.cons_append, List.append_assoc]
  exact Follows.cons _ hfront (byteLength_pair hn hm)
    (yields_pair hn hm hhigh hlow before x (rawBody_of_hexUnit hn))
    (fun hraw => rawBody_of_hexUnit hm (rawBody_of_hexUnit hn hraw)) h

end Pairs

theorem offset_behind {k : Nat} (hk : Utf8.byteLength front = k) :
    base + Utf8.byteLength (before ++ front) = base + Utf8.byteLength before + k := by
  rw [Utf8.byteLength_append, hk, Nat.add_assoc]

theorem follows_resolve (base : Nat) (rest before : List Char) :
    FollowsBehind base before rest (resolve (base + Utf8.byteLength before) rest) := by
  -- One case for each branch of `resolve`; what a branch has read is added to `before`.
  generalize hoffset : base + Utf8.byteLength before = offset
  fun_induction resolve offset rest generalizing before with
  | case1 => exact follows_nil
  | case2 offset c rest hc ih =>
    subst hoffset
    exact follows_plain hc (ih _ (offset_behind (byteLength_plain c)))
  | case3 offset c hc h1 h2 h3 h4 after hnumber =>
    subst hoffset
    rcases not_not.1 hc with rfl
    exact follows_malformed hnumber
  | case4 offset c hc h1 h2 h3 h4 high hnumber hhigh l1 l2 l3 l4 after hlow =>
    subst hoffset
    rcases not_not.1 hc with rfl
    exact follows_unpaired (hexNumber?_eq_some_iff.1 hnumber) (isHigh_iff.1 hhigh) hlow
  | case5 offset c hc h1 h2 h3 h4 high hnumber hhigh l1 l2 l3 l4 after low hlow ih =>
    subst hoffset
    rcases not_not.1 hc with rfl
    rcases Option.filter_eq_some_iff.1 hlow with ⟨hlownumber, hislow⟩
    have hn := hexNumber?_eq_some_iff.1 hnumber
    have hm := hexNumber?_eq_some_iff.1 hlownumber
    exact follows_pair hn hm (isHigh_iff.1 hhigh) (isLow_iff.1 hislow)
      (ih _ (offset_behind (byteLength_pair hn hm)))
  | case6 offset c hc h1 h2 h3 h4 after high hnumber hhigh hshape =>
    subst hoffset
    rcases not_not.1 hc with rfl
    have hnone := congrArg (Option.filter Utf16.isLow) (unit?_eq_none hshape)
    exact follows_unpaired (hexNumber?_eq_some_iff.1 hnumber) (isHigh_iff.1 hhigh) hnone
  | case7 offset c hc h1 h2 h3 h4 after n hnumber hhigh hlow =>
    subst hoffset
    rcases not_not.1 hc with rfl
    exact follows_lone (hexNumber?_eq_some_iff.1 hnumber) (isLow_iff.1 hlow)
  | case8 offset c hc h1 h2 h3 h4 after n hnumber hhigh hlow ih =>
    subst hoffset
    rcases not_not.1 hc with rfl
    have hn := hexNumber?_eq_some_iff.1 hnumber
    exact follows_single hn (isHigh_iff.not.1 hhigh) (isLow_iff.not.1 hlow)
      (ih _ (offset_behind (length_escape hn).2))
  | case9 offset c hc rest hshape =>
    subst hoffset
    rcases not_not.1 hc with rfl
    refine follows_malformed (unit?_eq_none fun h1 h2 h3 h4 x heq => ?_)
    cases heq
    exact hshape h1 h2 h3 h4 x rfl
  | case10 offset c hc e after _ hne hshort =>
    subst hoffset
    rcases not_not.1 hc with rfl
    exact follows_unknown hne hshort
  | case11 offset c hc e after _ hne d hshort ih =>
    subst hoffset
    rcases not_not.1 hc with rfl
    exact follows_short hne hshort (ih _ (offset_behind (byteLength_short hshort)))
  | case12 offset c hc =>
    subst hoffset
    rcases not_not.1 hc with rfl
    exact follows_backslash

end Unescape

/-! ## 6. Tokens -/

open Unescape

variable {t : Token} {body : List Char}

theorem unescapeTraced_of_inner (h : inner? t.content.toList = some body) :
    t.unescapeTraced = ⟨(readFrom (t.span.start + 1) body ⟨0, body⟩).result.map String.ofList,
      (readFrom (t.span.start + 1) body ⟨0, body⟩).moves⟩ := by
  rw [Token.unescapeTraced, h]
  dsimp only
  generalize readFrom (t.span.start + 1) body ⟨0, body⟩ = read
  rcases read with ⟨result, moves⟩
  cases result with
  | error failure => rfl
  | ok cs =>
    rw [Traced.ok_bind]
    exact congrArg (Traced.mk _) (List.append_nil moves)

/-- Unescaping by byte offsets gives the same strings and the same errors for every token; so no
text is cut past its end or inside a character. -/
theorem unescapeTraced_agrees (t : Token) :
    t.unescapeTraced.result.mapError Failure.error? = t.unescape.mapError some := by
  rcases hinner : inner? t.content.toList with _ | body
  · rw [Token.unescapeTraced, Token.unescape, hinner]
    rfl
  · have hfollows := (follows_resolve (t.span.start + 1) body []).agrees
    rw [unescapeTraced_of_inner hinner, Token.unescape, hinner]
    dsimp only
    rw [mapError_map, mapError_map]
    exact congrArg (Except.map String.ofList) hfollows

theorem unescapeTraced_inStep (hbody : t.content.toList = '"' :: (body ++ ['"']))
    (hraw : RawBody body) : ∀ m ∈ t.unescapeTraced.moves, m.InStep body := by
  rw [unescapeTraced_of_inner (hbody ▸ inner?_quoted body)]
  exact (follows_resolve (t.span.start + 1) body []).inStep hraw

theorem unescapeTraced_surrogate (hbody : t.content.toList = '"' :: (body ++ ['"']))
    (hraw : RawBody body) {failure : Failure} (h : t.unescapeTraced.result = .error failure) :
    ∃ error, failure = .refused .unpairedHigh error ∨ failure = .refused .noCharacter error := by
  rw [unescapeTraced_of_inner (hbody ▸ inner?_quoted body)] at h
  have hread := map_eq_error_iff.1 h
  exact (follows_resolve (t.span.start + 1) body []).surrogate hraw failure hread

end JsonAutomata
