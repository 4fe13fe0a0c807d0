/-!
# UTF-16 — characters as sequences of 16-bit units

A character of the basic plane is one unit. Any other is a pair: a high surrogate, then a low one,
each carrying ten bits of the code point less `0x10000`. Any two such units are the halves of a pair
(`high_combine`, `low_combine`).
-/

namespace JsonAutomata

namespace Utf16

def isHigh (unit : Nat) : Bool := 0xD800 ≤ unit && unit < 0xDC00

def isLow (unit : Nat) : Bool := 0xDC00 ≤ unit && unit < 0xE000

def high (code : Nat) : Nat := 0xD800 + (code - 0x10000) / 0x400

def low (code : Nat) : Nat := 0xDC00 + (code - 0x10000) % 0x400

def combine (high low : Nat) : Nat := 0x10000 + (high - 0xD800) * 0x400 + (low - 0xDC00)

def units (c : Char) : List Nat :=
  if c.toNat < 0x10000 then [c.toNat] else [high c.toNat, low c.toNat]

def encode (cs : List Char) : List Nat := cs.flatMap units

theorem high_combine {h l : Nat} (hh : isHigh h = true) (hl : isLow l = true) :
    high (combine h l) = h := by
  simp only [isHigh, isLow, Bool.and_eq_true, decide_eq_true_eq] at hh hl
  unfold high combine
  omega

theorem low_combine (h : Nat) {l : Nat} (hl : isLow l = true) : low (combine h l) = l := by
  simp only [isLow, Bool.and_eq_true, decide_eq_true_eq] at hl
  unfold low combine
  omega

theorem isHigh_high {code : Nat} (h : code < 0x110000) : isHigh (high code) = true := by
  have hh : 0xD800 ≤ high code ∧ high code < 0xDC00 := by
    unfold high
    omega
  simp [isHigh, hh]

theorem isLow_low (code : Nat) : isLow (low code) = true := by
  have hl : 0xDC00 ≤ low code ∧ low code < 0xE000 := by
    unfold low
    omega
  simp [isLow, hl]

end Utf16

end JsonAutomata
