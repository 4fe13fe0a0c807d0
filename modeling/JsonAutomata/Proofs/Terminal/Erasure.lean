import JsonAutomata.Terminal.Ansi

/-!
# Erasure — styled text without its control sequences

`eraseStyles` takes the control sequences that set styles out of a text, and `Erases` says this of a
part of a text, whatever follows it, so that parts can be put together.  A painter that only wraps
texts paints a text without escape characters so that it erases to the text
(`Painter.OnlyWraps.erases`).
-/

namespace JsonAutomata

namespace Terminal

/-! ## 1. Control sequences -/

/-- What stands behind the control sequence that the text begins with, if it does. -/
def afterSequence? : List Char → Option (List Char)
  | '\x1b' :: '[' :: rest =>
    match rest.dropWhile isParameter with
    | 'm' :: after => some after
    | _ => none
  | _ => none

theorem length_afterSequence? {text after : List Char} (h : afterSequence? text = some after) :
    after.length < text.length := by
  unfold afterSequence? at h
  split at h
  · rename_i rest
    have hdrop := (List.dropWhile_suffix (l := rest) isParameter).length_le
    split at h
    · rename_i heq
      cases h
      rw [heq, List.length_cons] at hdrop
      simp only [List.length_cons]
      omega
    · cases h
  · cases h

def eraseStyles (text : List Char) : List Char :=
  match text with
  | [] => []
  | c :: rest =>
    match _ : afterSequence? (c :: rest) with
    | some after => eraseStyles after
    | none => c :: eraseStyles rest
termination_by text.length
decreasing_by
  · exact length_afterSequence? ‹_›
  · simp

theorem eraseStyles_of_after {text after : List Char} (h : afterSequence? text = some after) :
    eraseStyles text = eraseStyles after := by
  cases text with
  | nil => cases h
  | cons c rest =>
    rw [eraseStyles]
    split
    · rename_i heq
      rw [h] at heq
      cases heq
      rfl
    · rename_i heq
      rw [h] at heq
      cases heq

theorem afterSequence?_cons_of_ne {c : Char} (h : c ≠ '\x1b') (rest : List Char) :
    afterSequence? (c :: rest) = none := by
  unfold afterSequence?
  split
  · rename_i heq
    exact absurd (List.cons.inj heq).1 h
  · rfl

theorem eraseStyles_cons_of_ne {c : Char} (h : c ≠ '\x1b') (rest : List Char) :
    eraseStyles (c :: rest) = c :: eraseStyles rest := by
  rw [eraseStyles]
  split
  · rename_i heq
    rw [afterSequence?_cons_of_ne h] at heq
    cases heq
  · rfl

/-! ## 2. Erasing parts of a text -/

/-- Erasing `styled` leaves `plain`, whatever follows. -/
def Erases (styled plain : List Char) : Prop :=
  ∀ rest, eraseStyles (styled ++ rest) = plain ++ eraseStyles rest

theorem Erases.eraseStyles_eq {styled plain : List Char} (h : Erases styled plain) :
    eraseStyles styled = plain := by
  have hend := h []
  rwa [List.append_nil, eraseStyles, List.append_nil] at hend

theorem Erases.append {s s' p p' : List Char} (h : Erases s p) (h' : Erases s' p') :
    Erases (s ++ s') (p ++ p') := by
  intro rest
  rw [List.append_assoc, h, h', List.append_assoc]

/-- A text without escape characters stays as it is. -/
theorem erases_self {text : List Char} (h : '\x1b' ∉ text) : Erases text text := by
  intro rest
  induction text with
  | nil => rfl
  | cons c text ih =>
    rw [List.mem_cons, not_or] at h
    rw [List.cons_append, eraseStyles_cons_of_ne (Ne.symm h.1), ih h.2, List.cons_append]

/-- Nothing stays of a control sequence. -/
theorem erases_sequence {parameters : List Char} (h : ∀ c ∈ parameters, isParameter c = true) :
    Erases ('\x1b' :: '[' :: parameters ++ ['m']) [] := by
  intro rest
  apply eraseStyles_of_after
  have hdrop : (parameters ++ 'm' :: rest).dropWhile isParameter = 'm' :: rest := by
    rw [List.dropWhile_append_of_pos h]
    rfl
  show afterSequence? ('\x1b' :: '[' :: (parameters ++ ['m'] ++ rest)) = some rest
  rw [List.append_assoc, List.singleton_append]
  simp only [afterSequence?, hdrop]

theorem StyleCodes.erases {codes : List Char} (h : StyleCodes codes) : Erases codes [] := by
  induction h with
  | nil => exact erases_self List.not_mem_nil
  | @sequence parameters rest hparameters _ ih =>
    have hboth := (erases_sequence hparameters).append ih
    rwa [List.append_assoc, List.singleton_append] at hboth

theorem Painter.OnlyWraps.erases {painter : Painter} (h : painter.OnlyWraps) (style : Style)
    {text : List Char} (htext : '\x1b' ∉ text) :
    Erases (painter.paint true .asIs style text) text := by
  obtain ⟨before, after, hbefore, hafter, heq⟩ := h style text htext
  have hwrapped := (hbefore.erases.append (erases_self htext)).append hafter.erases
  rwa [List.nil_append, List.append_nil, ← heq] at hwrapped

/-! ## 3. The painter of the program -/

theorem ansi_formatsPlain : Painter.ansi.FormatsPlain := fun _ _ _ => rfl

theorem isParameter_of_mem {style : Style} : ∀ c ∈ style.parameters, isParameter c = true := by
  apply List.all_eq_true.1
  cases style with
  | weight w => cases w <;> rfl
  | color c => cases c <;> rfl
  | both w c => cases w <;> cases c <;> rfl

/-- No style has to be opened again in a text that resets none. -/
theorem Style.reopened_of_not_mem (again : List Char) {text : List Char} (h : '\x1b' ∉ text) :
    Style.reopened again text = text := by
  fun_induction Style.reopened again text with
  | case1 rest ih => exact absurd List.mem_cons_self h
  | case2 c rest _ ih => rw [ih fun hmem => h (List.mem_cons_of_mem c hmem)]
  | case3 => rfl

theorem ansi_onlyWraps : Painter.ansi.OnlyWraps := by
  intro style text htext
  have hzero : ∀ c ∈ ['0'], isParameter c = true := List.forall_mem_singleton.2 rfl
  refine ⟨style.opening, Style.reset, .sequence isParameter_of_mem .nil, .sequence hzero .nil, ?_⟩
  show style.opening ++ Style.reopened style.opening text ++ Style.reset = _
  rw [Style.reopened_of_not_mem style.opening htext]

end Terminal

end JsonAutomata
