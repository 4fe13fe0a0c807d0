/-!
# UTF-8 — byte lengths, encoding and checked decoding

Offsets throughout the library count bytes of UTF-8, and a text can be cut at the offsets of its
characters (`splitAt?`). Decoding reports the first fault: the byte at which the well-formed part
ends, and how many bytes from there on can begin no character, or that the input ends inside a
character.
-/

namespace JsonAutomata

namespace Utf8

def byteLength : List Char → Nat
  | [] => 0
  | c :: cs => c.utf8Size + byteLength cs

@[simp]
theorem byteLength_nil : byteLength [] = 0 := rfl

@[simp]
theorem byteLength_cons (c : Char) (cs : List Char) :
    byteLength (c :: cs) = c.utf8Size + byteLength cs := rfl

@[simp]
theorem byteLength_append (as bs : List Char) :
    byteLength (as ++ bs) = byteLength as + byteLength bs := by
  induction as with
  | nil => simp
  | cons a as ih => simp [ih, Nat.add_assoc]

theorem byteLength_eq_zero_iff {cs : List Char} : byteLength cs = 0 ↔ cs = [] := by
  cases cs with
  | nil => simp
  | cons c cs =>
    have hpos := c.utf8Size_pos
    simp only [byteLength_cons, List.cons_ne_nil, iff_false]
    omega

/-- The parts of a text before and from a byte on.  A text cannot be cut behind its end, nor inside
a character. -/
def splitAt? : Nat → List Char → Option (List Char × List Char)
  | n, [] => if n = 0 then some ([], []) else none
  | n, c :: cs =>
    if n = 0 then some ([], c :: cs)
    else if n < c.utf8Size then none
    else (splitAt? (n - c.utf8Size) cs).map fun parts => (c :: parts.1, parts.2)

@[simp]
theorem splitAt?_append (before after : List Char) :
    splitAt? (byteLength before) (before ++ after) = some (before, after) := by
  induction before with
  | nil => cases after <;> rfl
  | cons c before ih =>
    have hpos := c.utf8Size_pos
    rw [List.cons_append, splitAt?, byteLength_cons, if_neg (by omega), if_neg (by omega),
      Nat.add_sub_cancel_left, ih]
    rfl

theorem splitAt?_eq_some_iff {n : Nat} {cs before after : List Char} :
    splitAt? n cs = some (before, after) ↔ cs = before ++ after ∧ byteLength before = n := by
  constructor
  · intro h
    induction cs generalizing n before with
    | nil =>
      rw [splitAt?] at h
      split at h
      · rename_i hn
        cases h
        exact ⟨rfl, hn.symm⟩
      · cases h
    | cons c cs ih =>
      rw [splitAt?] at h
      split at h
      · rename_i hn
        cases h
        exact ⟨rfl, hn.symm⟩
      · split at h
        · cases h
        · obtain ⟨⟨front, back⟩, hparts, heq⟩ := Option.map_eq_some_iff.1 h
          cases heq
          obtain ⟨rfl, hlength⟩ := ih hparts
          refine ⟨rfl, ?_⟩
          show c.utf8Size + byteLength front = n
          omega
  · rintro ⟨rfl, rfl⟩
    exact splitAt?_append before after

def encode (cs : List Char) : List UInt8 := cs.flatMap String.utf8EncodeChar

structure Fault where
  /-- The number of bytes before the fault, all of them well-formed. -/
  validUpTo : Nat
  /-- How many bytes the ill-formed sequence has; none if the input ends inside a character. -/
  length : Option Nat
  deriving DecidableEq, Repr

def Fault.message (fault : Fault) : String :=
  match fault.length with
  | some n => s!"invalid utf-8 sequence of {n} bytes from index {fault.validUpTo}"
  | none => s!"incomplete utf-8 byte sequence from index {fault.validUpTo}"

def isContinuation (b : UInt8) : Bool := b &&& 0xC0 == 0x80

def payload (b : UInt8) : Nat := (b &&& 0x3F).toNat

/-- Whether `b` may follow the first byte `a` of a three-byte character: no overlong forms and no
surrogates. -/
def isSecondOfThree (a b : UInt8) : Bool :=
  if a == 0xE0 then 0xA0 ≤ b && b ≤ 0xBF
  else if a == 0xED then 0x80 ≤ b && b ≤ 0x9F
  else isContinuation b

/-- Whether `b` may follow the first byte `a` of a four-byte character: no overlong forms and
nothing past the last code point. -/
def isSecondOfFour (a b : UInt8) : Bool :=
  if a == 0xF0 then 0x90 ≤ b && b ≤ 0xBF
  else if a == 0xF4 then 0x80 ≤ b && b ≤ 0x8F
  else isContinuation b

def andThen (code : Nat) (rest : Except Fault (List Char)) : Except Fault (List Char) :=
  rest.map (Char.ofNat code :: ·)

def decodeFrom (offset : Nat) : List UInt8 → Except Fault (List Char)
  | [] => .ok []
  | a :: rest =>
    let fault (length : Option Nat) : Except Fault (List Char) := .error ⟨offset, length⟩
    -- The first byte tells how many follow; `C0`, `C1` and what is above `F4` begin nothing.
    if a < 0x80 then
      andThen a.toNat (decodeFrom (offset + 1) rest)
    else if 0xC2 ≤ a && a ≤ 0xDF then
      match rest with
      | [] => fault none
      | b :: rest =>
        if isContinuation b then
          andThen ((a &&& 0x1F).toNat * 64 + payload b) (decodeFrom (offset + 2) rest)
        else fault (some 1)
    else if 0xE0 ≤ a && a ≤ 0xEF then
      match rest with
      | [] => fault none
      | b :: rest =>
        if !isSecondOfThree a b then fault (some 1)
        else match rest with
          | [] => fault none
          | c :: rest =>
            if isContinuation c then
              andThen (((a &&& 0x0F).toNat * 64 + payload b) * 64 + payload c)
                (decodeFrom (offset + 3) rest)
            else fault (some 2)
    else if 0xF0 ≤ a && a ≤ 0xF4 then
      match rest with
      | [] => fault none
      | b :: rest =>
        if !isSecondOfFour a b then fault (some 1)
        else match rest with
          | [] => fault none
          | c :: rest =>
            if !isContinuation c then fault (some 2)
            else match rest with
              | [] => fault none
              | d :: rest =>
                if isContinuation d then
                  andThen
                    ((((a &&& 0x07).toNat * 64 + payload b) * 64 + payload c) * 64 + payload d)
                    (decodeFrom (offset + 4) rest)
                else fault (some 3)
    else fault (some 1)

def decode (bytes : List UInt8) : Except Fault (List Char) := decodeFrom 0 bytes

end Utf8

end JsonAutomata
