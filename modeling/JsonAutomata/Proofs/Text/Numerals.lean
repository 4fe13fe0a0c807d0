import JsonAutomata.Text.Numeral

/-!
# Numerals — what is written can be read

The numeral of a number is a run of digits that spells it, so reading gives the number back.
Greater numbers never have shorter numerals, which is what keeps columns of numerals aligned.
-/

namespace JsonAutomata

theorem numeral_eq (n : Nat) :
    numeral n = (if n < 10 then [] else numeral (n / 10)) ++ [Nat.digitChar (n % 10)] := by
  rw [numeral, Nat.toDigits_eq_if (by decide)]
  split
  · rename_i hlt
    rw [Nat.mod_eq_of_lt hlt]
    rfl
  · rfl

theorem digitsValue_numeral (n : Nat) : digitsValue (numeral n) = n :=
  Nat.ofDigitChars_ten_toDigits

theorem numeral_ne_nil (n : Nat) : numeral n ≠ [] := Nat.toDigits_ne_nil

theorem isDigit_of_mem_numeral {n : Nat} {c : Char} (h : c ∈ numeral n) : c.isDigit = true :=
  Nat.isDigit_of_mem_toDigits (by decide) (by decide) h

theorem not_mem_numeral {c : Char} (hc : c.isDigit = false) (n : Nat) : c ∉ numeral n := by
  intro h
  rw [isDigit_of_mem_numeral h] at hc
  cases hc

theorem readNatural?_numeral (n : Nat) : readNatural? (numeral n) = some n := by
  have hall : (numeral n).all Char.isDigit = true :=
    List.all_eq_true.2 fun _ => isDigit_of_mem_numeral
  rw [readNatural?, if_pos ⟨numeral_ne_nil n, hall⟩, digitsValue_numeral]

theorem length_numeral_mono {m n : Nat} (h : m ≤ n) : (numeral m).length ≤ (numeral n).length := by
  induction n using Nat.strongRecOn generalizing m with
  | ind n ih =>
    rw [numeral_eq m, numeral_eq n, List.length_append, List.length_append]
    by_cases hm : m < 10
    · simp [hm]
    · have hn : ¬ n < 10 := by omega
      have hrest := ih (n / 10) (by omega) (show m / 10 ≤ n / 10 by omega)
      simp only [hm, hn, if_false, List.length_singleton]
      omega

end JsonAutomata
