import JsonAutomata.Json.Unescape
import JsonAutomata.Text.Utf8

/-!
# Cursors — unescaping by byte offsets

The escapes of a string token once more, by a cursor that goes from character to character through
the text between the quotation marks. Hexadecimal digits are not read from the cursor: they are cut
out of the text at byte offsets, and the cursor then skips as many characters as were cut out. So
the offsets and the cursor must keep in step. All cuts and skips are recorded, and an error says
which branch has found it.
-/

namespace JsonAutomata

namespace Unescape

/-! ## What is recorded -/

inductive Fault where
  | missingQuotes
  | unknownEscape
  | malformedUnit
  | unpairedHigh
  | noCharacter
  deriving DecidableEq, Repr

inductive Failure where
  | refused (fault : Fault) (error : DecodeError)
  /-- The text is cut at a byte past its end or inside a character. -/
  | torn (place : Nat)
  deriving DecidableEq, Repr

def Failure.error? : Failure → Option DecodeError
  | refused _ error => some error
  | torn _ => none

inductive Move where
  | cut (place : Nat)
  /-- The cursor skips so many characters, from one byte to another. -/
  | skip (count start stop : Nat)
  deriving DecidableEq, Repr

/-- A result, and what was done on the way to it. -/
structure Traced (α : Type) where
  result : Except Failure α
  moves : List Move

namespace Traced

variable {α β : Type}

def bind (x : Traced α) (f : α → Traced β) : Traced β :=
  match x.result with
  | .error e => ⟨.error e, x.moves⟩
  | .ok a => ⟨(f a).result, x.moves ++ (f a).moves⟩

instance : Monad Traced where
  pure a := ⟨.ok a, []⟩
  bind := bind

theorem ok_bind (a : α) (moves : List Move) (f : α → Traced β) :
    (⟨.ok a, moves⟩ : Traced α) >>= f = ⟨(f a).result, moves ++ (f a).moves⟩ := rfl

theorem bind_eq_of_eq {a : α} {f : α → Traced β} {r : Except Failure β} {before after : List Move}
    (h : f a = ⟨r, after⟩) : (⟨.ok a, before⟩ : Traced α) >>= f = ⟨r, before ++ after⟩ := by
  rw [ok_bind, h]

theorem error_bind (e : Failure) (moves : List Move) (f : α → Traced β) :
    (⟨.error e, moves⟩ : Traced α) >>= f = ⟨.error e, moves⟩ := rfl

theorem bind_eq_ok {x : Traced α} {f : α → Traced β} {b : β} {moves : List Move}
    (h : x >>= f = ⟨.ok b, moves⟩) :
    ∃ a before after, x = ⟨.ok a, before⟩ ∧ f a = ⟨.ok b, after⟩ := by
  rcases x with ⟨result, before⟩
  cases result with
  | error e =>
    rw [error_bind] at h
    cases h
  | ok a =>
    rw [ok_bind] at h
    rcases hfa : f a with ⟨fresult, after⟩
    rw [hfa] at h
    cases h
    exact ⟨a, before, after, rfl, hfa⟩

end Traced

/-! ## Cursors -/

/-- A place in a text: its byte offset and the characters from there on. -/
structure Cursor where
  offset : Nat
  rest : List Char
  deriving DecidableEq, Repr

/-- The cursor behind the next characters, or at the end if there are fewer. -/
def Cursor.advance (count : Nat) (cursor : Cursor) : Cursor :=
  ⟨cursor.offset + Utf8.byteLength (cursor.rest.take count), cursor.rest.drop count⟩

theorem Cursor.length_rest_advance (count : Nat) (cursor : Cursor) :
    (cursor.advance count).rest.length ≤ cursor.rest.length := by
  simp [Cursor.advance]

def Cursor.skip (count : Nat) (cursor : Cursor) : Traced Cursor :=
  let next := cursor.advance count
  ⟨.ok next, [.skip count cursor.offset next.offset]⟩

/-! ## Reading -/

section Reading

variable {α : Type} (base : Nat) (text : List Char)

def cut? (place : Nat) : Traced (Option (List Char)) :=
  ⟨.ok ((Utf8.splitAt? place text).map Prod.snd), [.cut place]⟩

def cut (place : Nat) : Traced (List Char) := do
  match ← cut? text place with
  | some rest => pure rest
  | none => ⟨.error (.torn place), []⟩

def hexUnit (place : Nat) (rest : List Char) : Traced (Option Nat) :=
  ⟨.ok ((Utf8.splitAt? 4 rest).bind fun parts => hexNumber? parts.1), [.cut (place + 4)]⟩

def refusal (fault : Fault) (length offset : Nat) (rest : List Char) : Failure :=
  .refused fault (.invalidEscape (String.ofList (rest.take length)) offset)

def refuse (place length : Nat) (fault : Fault) : Traced α := do
  let rest ← cut text place
  ⟨.error (refusal fault length (base + place) rest), []⟩

def lowUnit (place : Nat) : Traced (Option Nat) := do
  match ← cut? text place with
  | some ('\\' :: 'u' :: rest) =>
    let unit ← hexUnit (place + 2) rest
    pure (unit.filter Utf16.isLow)
  | _ => pure none

def character (place code : Nat) (cursor : Cursor) : Traced (Char × Cursor) :=
  if code.isValidChar then pure (Char.ofNat code, cursor)
  else refuse base text place 6 .noCharacter

/-- The character of an escape at a byte that spells a unit; the cursor stands behind it. -/
def unitCharacter (place unit : Nat) (cursor : Cursor) : Traced (Char × Cursor) :=
  if Utf16.isHigh unit then do
    match ← lowUnit text (place + 6) with
    | none => refuse base text place 12 .unpairedHigh
    | some low =>
      let cursor ← cursor.skip 6
      character base text place (Utf16.combine unit low) cursor
  else character base text place unit cursor

def unitEscape (place : Nat) (cursor : Cursor) : Traced (Char × Cursor) := do
  let digits ← cut text (place + 2)
  match ← hexUnit (place + 2) digits with
  | none => refuse base text place 6 .malformedUnit
  | some unit =>
    let cursor ← cursor.skip 4
    unitCharacter base text place unit cursor

def nextChar (place : Nat) (c : Char) (rest : List Char) : Traced (Char × Cursor) :=
  if c ≠ '\\' then pure (c, ⟨place + c.utf8Size, rest⟩)
  else match rest with
    | [] => refuse base text place 2 .unknownEscape
    | 'u' :: rest => unitEscape base text place ⟨place + 2, rest⟩
    | e :: rest =>
      match short? e with
      | none => refuse base text place 2 .unknownEscape
      | some d => pure (d, ⟨place + 1 + e.utf8Size, rest⟩)

variable {base text} {place : Nat} {cursor next : Cursor} {d : Char} {moves : List Move}

theorem refuse_ne_ok {length : Nat} {fault : Fault} {a : α} :
    refuse base text place length fault ≠ ⟨.ok a, moves⟩ := by
  intro h
  rcases Traced.bind_eq_ok h with ⟨rest, before, after, -, hrest⟩
  cases hrest

theorem character_eq_ok {code : Nat}
    (h : character base text place code cursor = ⟨.ok (d, next), moves⟩) : next = cursor := by
  unfold character at h
  split at h
  · cases h
    rfl
  · exact absurd h refuse_ne_ok

theorem length_rest_of_unitCharacter {unit : Nat}
    (h : unitCharacter base text place unit cursor = ⟨.ok (d, next), moves⟩) :
    next.rest.length ≤ cursor.rest.length := by
  unfold unitCharacter at h
  split at h
  · rcases Traced.bind_eq_ok h with ⟨low?, _, _, -, hlow⟩
    cases low? with
    | none => exact absurd hlow refuse_ne_ok
    | some low =>
      rcases Traced.bind_eq_ok hlow with ⟨behind, _, _, hbehind, hcharacter⟩
      cases hbehind
      rcases character_eq_ok hcharacter with rfl
      exact cursor.length_rest_advance 6
  · rcases character_eq_ok h with rfl
    exact Nat.le_refl _

theorem length_rest_of_unitEscape
    (h : unitEscape base text place cursor = ⟨.ok (d, next), moves⟩) :
    next.rest.length ≤ cursor.rest.length := by
  rcases Traced.bind_eq_ok h with ⟨digits, _, _, -, hdigits⟩
  rcases Traced.bind_eq_ok hdigits with ⟨unit?, _, _, -, hunit⟩
  cases unit? with
  | none => exact absurd hunit refuse_ne_ok
  | some unit =>
    rcases Traced.bind_eq_ok hunit with ⟨behind, _, _, hbehind, hcharacter⟩
    cases hbehind
    exact Nat.le_trans (length_rest_of_unitCharacter hcharacter) (cursor.length_rest_advance 4)

theorem length_rest_of_nextChar {c : Char} {rest : List Char}
    (h : nextChar base text place c rest = ⟨.ok (d, next), moves⟩) :
    next.rest.length ≤ rest.length := by
  unfold nextChar at h
  split at h
  · cases h
    exact Nat.le_refl _
  · split at h
    · exact absurd h refuse_ne_ok
    · exact Nat.le_succ_of_le (length_rest_of_unitEscape h)
    · split at h
      · exact absurd h refuse_ne_ok
      · cases h
        exact Nat.le_succ _

def readFrom (base : Nat) (text : List Char) : Cursor → Traced (List Char)
  | ⟨_, []⟩ => pure []
  | ⟨place, c :: rest⟩ =>
    match _hread : nextChar base text place c rest with
    | ⟨.error e, moves⟩ => ⟨.error e, moves⟩
    | ⟨.ok (d, next), moves⟩ =>
      let tail := readFrom base text next
      ⟨tail.result.map (d :: ·), moves ++ tail.moves⟩
termination_by cursor => cursor.rest.length
decreasing_by exact Nat.lt_succ_of_le (length_rest_of_nextChar _hread)

end Reading

end Unescape

/-- The string that a string token denotes, read by a cursor. -/
def Token.unescapeTraced (t : Token) : Unescape.Traced String := do
  match Unescape.inner? t.content.toList with
  | none =>
    ⟨.error (.refused .missingQuotes
      (.unexpectedToken t.content .stringLiteral t.span.start)), []⟩
  | some text =>
    let read ← Unescape.readFrom (t.span.start + 1) text ⟨0, text⟩
    pure (String.ofList read)

end JsonAutomata
