import JsonAutomata.Automaton.Path
import JsonAutomata.Pattern.Language
import Mathlib.Order.CompletePartialOrder

/-!
# Coverings — bounds on what can be read up to a state

A covering assigns texts to states such that following an edge never leads out of them.  What can be
read on a path then stays inside (`Covers.mem_of_path`), so one covering bounds all paths at once,
cycles included, and no path has to be taken apart.
-/

open Computability

namespace JsonAutomata

def Matcher.language : Matcher → Language Char
  | epsilon => 1
  | consuming cls => cls.language

/-- What is assigned to the source of an edge, continued along the edge, is assigned to its
target. -/
def Covers (T : List Transition) (F : Nat → Language Char) : Prop :=
  ∀ s u m, ⟨s, u, m⟩ ∈ T → F s * m.language ≤ F u

variable {T T' : List Transition} {F G : Nat → Language Char}

theorem covers_append : Covers (T ++ T') F ↔ Covers T F ∧ Covers T' F := by
  constructor
  · intro h
    exact ⟨fun s u m he => h s u m (List.mem_append_left T' he),
      fun s u m he => h s u m (List.mem_append_right T he)⟩
  · rintro ⟨h, h'⟩ s u m he
    rcases List.mem_append.1 he with he | he
    · exact h s u m he
    · exact h' s u m he

theorem covers_cons_epsilon {s u : Nat} :
    Covers (⟨s, u, .epsilon⟩ :: T) F ↔ F s ≤ F u ∧ Covers T F := by
  constructor
  · intro h
    refine ⟨?_, fun s u m he => h s u m (List.mem_cons_of_mem _ he)⟩
    have hsu := h s u .epsilon List.mem_cons_self
    rwa [Matcher.language, mul_one] at hsu
  · rintro ⟨hsu, h⟩ s' u' m he
    rcases List.mem_cons.1 he with he | he
    · cases he
      rwa [Matcher.language, mul_one]
    · exact h s' u' m he

theorem covers_flatMap {α : Type} {as : List α} {edges : α → List Transition} :
    Covers (as.flatMap edges) F ↔ ∀ a ∈ as, Covers (edges a) F := by
  constructor
  · intro h a ha s u m he
    exact h s u m (List.mem_flatMap.2 ⟨a, ha, he⟩)
  · intro h s u m he
    obtain ⟨a, ha, he⟩ := List.mem_flatMap.1 he
    exact h a ha s u m he

theorem covers_nil : Covers [] F := fun _ _ _ he => absurd he List.not_mem_nil

/-- A covering may be exchanged where it is not larger at sources and not smaller at targets. -/
theorem Covers.transfer (h : Covers T G)
    (hends : ∀ s u m, ⟨s, u, m⟩ ∈ T → F s ≤ G s ∧ G u ≤ F u) : Covers T F := by
  intro s u m he
  have ⟨hs, hu⟩ := hends s u m he
  calc F s * m.language ≤ G s * m.language := mul_le_mul_left hs _
    _ ≤ G u := h s u m he
    _ ≤ F u := hu

/-- What is assigned to the beginning of a path, continued along the path, is assigned to its
end. -/
theorem Covers.mem_of_path {A : Automaton} (h : Covers A.transitions F) {s u : Nat}
    {v w : List Char} (path : A.Path s w u) (hv : v ∈ F s) : v ++ w ∈ F u := by
  -- Along the path, `v` is what has been read so far.
  induction path generalizing v with
  | refl => rwa [List.append_nil]
  | @skip s t u w edge _ ih =>
    have hst := h s t .epsilon edge
    rw [Matcher.language, mul_one] at hst
    exact ih (hst hv)
  | @consume s t u c w cls edge hc _ ih =>
    have hvc : v ++ [c] ∈ F t :=
      h s t (.consuming cls) edge (Language.append_mem_mul hv ⟨c, hc, rfl⟩)
    have hvw := ih hvc
    rwa [List.append_assoc, List.singleton_append] at hvw

end JsonAutomata
