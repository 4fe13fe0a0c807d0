import JsonAutomata.Automaton.Basic

/-!
# Paths — reachability as a relation

`EpsilonPath` relates two states if transitions that consume nothing lead from one to the other, and
`Path` relates them by the text that is consumed on the way. Paths compose, and their texts with
them.
-/

namespace JsonAutomata

namespace Automaton

inductive EpsilonPath (A : Automaton) : State → State → Prop where
  | refl (s : State) : EpsilonPath A s s
  | step {s t u : State} (edge : ⟨s, t, .epsilon⟩ ∈ A.transitions) (rest : EpsilonPath A t u) :
      EpsilonPath A s u

inductive Path (A : Automaton) : State → List Char → State → Prop where
  | refl (s : State) : Path A s [] s
  | skip {s t u : State} {w : List Char} (edge : ⟨s, t, .epsilon⟩ ∈ A.transitions)
      (rest : Path A t w u) : Path A s w u
  | consume {s t u : State} {c : Char} {w : List Char} {cls : CharClass}
      (edge : ⟨s, t, .consuming cls⟩ ∈ A.transitions) (accepts : cls.accepts c = true)
      (rest : Path A t w u) : Path A s (c :: w) u

variable {A : Automaton}

theorem EpsilonPath.trans {s t u : State} (h : EpsilonPath A s t) (h' : EpsilonPath A t u) :
    EpsilonPath A s u := by
  induction h with
  | refl => exact h'
  | step edge _ ih => exact .step edge (ih h')

theorem Path.append {s t u : State} {v w : List Char} (h : Path A s v t) (h' : Path A t w u) :
    Path A s (v ++ w) u := by
  induction h with
  | refl => exact h'
  | skip edge _ ih => exact .skip edge (ih h')
  | consume edge accepts _ ih => exact .consume edge accepts (ih h')

theorem EpsilonPath.path {s t : State} (h : EpsilonPath A s t) : Path A s [] t := by
  induction h with
  | refl => exact .refl _
  | step edge _ ih => exact .skip edge ih

/-- A path that consumes nothing has only transitions that consume nothing. -/
theorem path_nil_iff {s t : State} : Path A s [] t ↔ EpsilonPath A s t := by
  refine ⟨fun h => ?_, EpsilonPath.path⟩
  generalize hw : ([] : List Char) = w at h
  induction h with
  | refl => exact .refl _
  | skip edge _ ih => exact .step edge (ih hw)
  | consume => cases hw

/-- A path that consumes two texts in a row passes a state between them. -/
theorem path_append_iff {s u : State} {v w : List Char} :
    Path A s (v ++ w) u ↔ ∃ t, Path A s v t ∧ Path A t w u := by
  refine ⟨fun h => ?_, fun ⟨t, h, h'⟩ => h.append h'⟩
  generalize hx : v ++ w = x at h
  induction h generalizing v with
  | refl s =>
    obtain ⟨rfl, rfl⟩ := List.append_eq_nil_iff.1 hx
    exact ⟨s, .refl s, .refl s⟩
  | skip edge _ ih =>
    obtain ⟨t, h1, h2⟩ := ih hx
    exact ⟨t, .skip edge h1, h2⟩
  | @consume s t u c x cls edge accepts rest ih =>
    cases v with
    | nil =>
      subst hx
      exact ⟨s, .refl s, .consume edge accepts rest⟩
    | cons d v =>
      injection hx with hd hv
      subst hd
      obtain ⟨m, h1, h2⟩ := ih hv
      exact ⟨m, .consume edge accepts h1, h2⟩

end Automaton

end JsonAutomata
