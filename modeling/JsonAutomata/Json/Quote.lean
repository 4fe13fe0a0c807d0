import JsonAutomata.Text.Hex
import JsonAutomata.Text.Utf16

/-!
# Quoted strings — text as JSON string literals

Everything outside printable ASCII is escaped, so a quoted string survives any transport of ASCII.
The quotation mark, the backslash and five controls have short escapes; all else is spelt by its
UTF-16 units.  `isPrintable_quoted` says that only printable ASCII is left.
-/

namespace JsonAutomata

namespace Quote

def unitEscape (unit : Nat) : List Char := '\\' :: 'u' :: hex4 unit

def escape (c : Char) : List Char :=
  if c = '"' then ['\\', '"']
  else if c = '\\' then ['\\', '\\']
  else if c = '\n' then ['\\', 'n']
  else if c = '\r' then ['\\', 'r']
  else if c = '\t' then ['\\', 't']
  else if c = '\x08' then ['\\', 'b']
  else if c = '\x0c' then ['\\', 'f']
  else if ' ' ≤ c ∧ c ≤ '~' then [c]
  else (Utf16.units c).flatMap unitEscape

def quoted (cs : List Char) : List Char := '"' :: cs.flatMap escape ++ ['"']

/-! ## Printable characters -/

def IsPrintable (c : Char) : Prop := ' ' ≤ c ∧ c ≤ '~'

instance (c : Char) : Decidable (IsPrintable c) := inferInstanceAs (Decidable (_ ∧ _))

theorem isPrintable_hexDigit {n : Nat} (h : n < 16) : IsPrintable (hexDigit n) := by
  have hall : ∀ m : Fin 16, IsPrintable (hexDigit m.val) := by decide
  exact hall ⟨n, h⟩

theorem isPrintable_unitEscape (unit : Nat) : ∀ c ∈ unitEscape unit, IsPrintable c := by
  intro c hc
  have hmod : ∀ n, n % 16 < 16 := fun n => Nat.mod_lt n (by decide)
  simp only [unitEscape, hex4, List.mem_cons, List.not_mem_nil, or_false] at hc
  rcases hc with rfl | rfl | rfl | rfl | rfl | rfl
  · decide
  · decide
  all_goals exact isPrintable_hexDigit (hmod _)

theorem isPrintable_escape (c : Char) : ∀ d ∈ escape c, IsPrintable d := by
  have hshort : ∀ e : Char, IsPrintable e → ∀ d ∈ ['\\', e], IsPrintable d := by
    intro e he d hd
    rcases List.mem_cons.1 hd with rfl | hd
    · decide
    · exact List.mem_singleton.1 hd ▸ he
  unfold escape
  repeat' split
  -- The seven short escapes, then the characters that stand for themselves and the spelt ones.
  iterate 7 exact hshort _ (by decide)
  · rename_i hprintable
    intro d hd
    exact List.mem_singleton.1 hd ▸ hprintable
  · intro d hd
    obtain ⟨unit, -, hd⟩ := List.mem_flatMap.1 hd
    exact isPrintable_unitEscape unit d hd

/-- A quoted text is printable ASCII. -/
theorem isPrintable_quoted (cs : List Char) : ∀ c ∈ quoted cs, IsPrintable c := by
  intro c hc
  simp only [quoted, List.cons_append, List.mem_cons, List.mem_append, List.mem_flatMap,
    List.not_mem_nil, or_false] at hc
  rcases hc with rfl | ⟨d, -, hc⟩ | rfl
  · decide
  · exact isPrintable_escape d c hc
  · decide

theorem not_mem_quoted {c : Char} (hc : ¬ IsPrintable c) (cs : List Char) : c ∉ quoted cs :=
  fun hmem => hc (isPrintable_quoted cs c hmem)

end Quote

def quote (s : String) : String := String.ofList (Quote.quoted s.toList)

end JsonAutomata
