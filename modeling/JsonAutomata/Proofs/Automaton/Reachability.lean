import JsonAutomata.Automaton.Path
import Mathlib.Tactic.ByContra

/-!
# Reachability — state sets as paths

The operations on state sets are tied to paths in the graph.  `mem_epsilonClosure` says that the
layered search finds exactly what epsilon transitions reach, cycles included, and `mem_reached` that
reading a text leads to the states at the ends of its paths.  Everything else about automata is
proved on paths.
-/

namespace JsonAutomata

namespace Automaton

variable {A : Automaton} {S : StateSet} {q : State}

/-! ## 1. Single steps -/

theorem mem_step {follows : Matcher → Bool} :
    q ∈ A.step follows S ↔
      ∃ t ∈ A.transitions, t.source ∈ S ∧ follows t.matcher = true ∧ t.target = q := by
  simp only [step, SortedSet.mem_ofList, List.mem_map, List.mem_filter, Bool.and_eq_true,
    SortedSet.contains_iff]
  constructor
  · rintro ⟨t, ⟨ht, hs, hf⟩, rfl⟩
    exact ⟨t, ht, hs, hf, rfl⟩
  · rintro ⟨t, ht, hs, hf, rfl⟩
    exact ⟨t, ⟨ht, hs, hf⟩, rfl⟩

theorem mem_stepEpsilon :
    q ∈ A.stepEpsilon S ↔ ∃ p ∈ S, ⟨p, q, .epsilon⟩ ∈ A.transitions := by
  rw [stepEpsilon, mem_step]
  constructor
  · rintro ⟨⟨p, r, m⟩, ht, hs, hf, rfl⟩
    cases m with
    | epsilon => exact ⟨p, hs, ht⟩
    | consuming cls => simp [Matcher.isEpsilon] at hf
  · rintro ⟨p, hp, ht⟩
    exact ⟨_, ht, hp, rfl, rfl⟩

theorem mem_stepOn {c : Char} :
    q ∈ A.stepOn c S ↔
      ∃ p ∈ S, ∃ cls, ⟨p, q, .consuming cls⟩ ∈ A.transitions ∧ cls.accepts c = true := by
  rw [stepOn, mem_step]
  constructor
  · rintro ⟨⟨p, r, m⟩, ht, hs, hf, rfl⟩
    cases m with
    | epsilon => simp [Matcher.accepts] at hf
    | consuming cls => exact ⟨p, hs, cls, ht, hf⟩
  · rintro ⟨p, hp, cls, ht, hf⟩
    exact ⟨_, ht, hp, hf, rfl⟩

/-! ## 2. The epsilon closure -/

def EpsilonClosed (A : Automaton) (S : StateSet) : Prop :=
  ∀ p q, ⟨p, q, .epsilon⟩ ∈ A.transitions → p ∈ S → q ∈ S

theorem EpsilonClosed.mem_of_path (h : A.EpsilonClosed S) {p : State} (path : A.EpsilonPath p q)
    (hp : p ∈ S) : q ∈ S := by
  induction path with
  | refl => exact hp
  | step edge _ ih => exact ih (h _ _ edge hp)

/-- The number of transitions that enter a state outside the set. -/
def undiscovered (A : Automaton) (S : StateSet) : Nat :=
  A.transitions.countP fun t => !S.contains t.target

theorem undiscovered_lt {T : StateSet} (hsub : ∀ p ∈ S, p ∈ T) {t : Transition}
    (ht : t ∈ A.transitions) (hnew : t.target ∈ T) (hold : ¬ t.target ∈ S) :
    A.undiscovered T < A.undiscovered S := by
  unfold undiscovered
  have hle : ∀ u : Transition, (!T.contains u.target) = true → (!S.contains u.target) = true := by
    intro u hu
    simp only [Bool.not_eq_true', ← Bool.not_eq_true, SortedSet.contains_iff] at hu ⊢
    exact fun hs => hu (hsub _ hs)
  -- The transition `t` is counted on the right only.
  obtain ⟨before, after, heq⟩ := List.append_of_mem ht
  have hT : (!T.contains t.target) = false := by
    simpa using hnew
  have hS : (!S.contains t.target) = true := by
    simpa [← Bool.not_eq_true] using hold
  rw [heq, List.countP_append, List.countP_append, List.countP_cons, List.countP_cons, hT, hS]
  have h1 := List.countP_mono_left (l := before) fun u _ => hle u
  have h2 := List.countP_mono_left (l := after) fun u _ => hle u
  simp only [Bool.false_eq_true, if_false, if_true]
  omega

theorem epsilonClosed_of_undiscovered (h : A.undiscovered S = 0) : A.EpsilonClosed S := by
  intro p q edge _
  have hall := List.countP_eq_zero.1 h _ edge
  simpa using hall

/-- The invariant of the search: a state of the closure that is not in the last layer has been left
already, so its epsilon transitions stay inside. -/
structure Layered (A : Automaton) (closure layer : StateSet) : Prop where
  layer_subset : ∀ p ∈ layer, p ∈ closure
  already_left : ∀ p q, ⟨p, q, .epsilon⟩ ∈ A.transitions → p ∈ closure → ¬ p ∈ layer → q ∈ closure

theorem layered_self (A : Automaton) (S : StateSet) : A.Layered S S :=
  ⟨fun _ hp => hp, fun _ _ _ hp hnot => absurd hp hnot⟩

section Layers

variable {closure layer : StateSet}

theorem mem_fresh :
    q ∈ A.stepEpsilon layer \ closure ↔
      (∃ p ∈ layer, ⟨p, q, .epsilon⟩ ∈ A.transitions) ∧ ¬ q ∈ closure := by
  rw [SortedSet.mem_diff, mem_stepEpsilon]

/-- The search is over when the last layer leads to no fresh state. -/
theorem Layered.epsilonClosed (h : A.Layered closure layer)
    (hempty : (A.stepEpsilon layer \ closure).isEmpty = true) : A.EpsilonClosed closure := by
  intro p q edge hp
  by_cases hlayer : p ∈ layer
  · by_contra hq
    exact SortedSet.isEmpty_iff.1 hempty q (mem_fresh.2 ⟨⟨p, hlayer, edge⟩, hq⟩)
  · exact h.already_left p q edge hp hlayer

/-- The fresh states are the next layer. -/
theorem Layered.next (h : A.Layered closure layer) :
    A.Layered (closure ∪ (A.stepEpsilon layer \ closure)) (A.stepEpsilon layer \ closure) := by
  refine ⟨fun p hp => SortedSet.mem_union.2 (.inr hp), fun p q edge hp hnot => ?_⟩
  have hold : p ∈ closure := (SortedSet.mem_union.1 hp).resolve_right hnot
  apply SortedSet.mem_union.2
  by_cases hlayer : p ∈ layer
  · by_cases hq : q ∈ closure
    · exact .inl hq
    · exact .inr (mem_fresh.2 ⟨⟨p, hlayer, edge⟩, hq⟩)
  · exact .inl (h.already_left p q edge hold hlayer)

/-- Each round but the last discovers a state. -/
theorem undiscovered_next_lt (hnonempty : ¬ (A.stepEpsilon layer \ closure).isEmpty = true) :
    A.undiscovered (closure ∪ (A.stepEpsilon layer \ closure)) < A.undiscovered closure := by
  obtain ⟨r, hr⟩ : ∃ r, r ∈ A.stepEpsilon layer \ closure := by
    by_contra hnone
    exact hnonempty (SortedSet.isEmpty_iff.2 fun a ha => hnone ⟨a, ha⟩)
  obtain ⟨⟨s, hs, edge⟩, hold⟩ := mem_fresh.1 hr
  have hsub : ∀ p ∈ closure, p ∈ closure ∪ (A.stepEpsilon layer \ closure) :=
    fun p hp => SortedSet.mem_union.2 (.inl hp)
  exact undiscovered_lt hsub edge (SortedSet.mem_union.2 (.inr hr)) hold

/-- With a round for each state outside, the search ends in a closed set, and in what epsilon
transitions reach. -/
theorem Layered.closeLayers (rounds : Nat) (h : A.Layered closure layer)
    (hrounds : A.undiscovered closure ≤ rounds) :
    (∀ p ∈ closure, p ∈ A.closeLayers rounds closure layer) ∧
      A.EpsilonClosed (A.closeLayers rounds closure layer) ∧
      ∀ q ∈ A.closeLayers rounds closure layer, ∃ p ∈ closure, A.EpsilonPath p q := by
  induction rounds generalizing closure layer with
  | zero =>
    refine ⟨fun p hp => hp, ?_, fun q hq => ⟨q, hq, .refl q⟩⟩
    exact epsilonClosed_of_undiscovered (Nat.le_zero.1 hrounds)
  | succ rounds ih =>
    simp only [Automaton.closeLayers]
    split
    · rename_i hempty
      exact ⟨fun p hp => hp, h.epsilonClosed hempty, fun q hq => ⟨q, hq, .refl q⟩⟩
    · rename_i hnonempty
      have hless := undiscovered_next_lt hnonempty
      have ⟨hsub, hclosed, hpath⟩ := ih h.next (by omega)
      refine ⟨fun p hp => hsub p (SortedSet.mem_union.2 (.inl hp)), hclosed, fun q hq => ?_⟩
      obtain ⟨p, hp, path⟩ := hpath q hq
      rcases SortedSet.mem_union.1 hp with hp | hp
      · exact ⟨p, hp, path⟩
      · -- A fresh state is one transition away from the layer before.
        obtain ⟨⟨s, hs, edge⟩, -⟩ := mem_fresh.1 hp
        exact ⟨s, h.layer_subset s hs, .step edge path⟩

end Layers

/-- The layered search finds exactly what epsilon transitions reach. -/
theorem mem_epsilonClosure : q ∈ A.epsilonClosure S ↔ ∃ p ∈ S, A.EpsilonPath p q := by
  have ⟨hsub, hclosed, hpath⟩ :=
    (layered_self A S).closeLayers A.transitions.length List.countP_le_length
  constructor
  · exact hpath q
  · rintro ⟨p, hp, path⟩
    exact hclosed.mem_of_path path (hsub p hp)

theorem epsilonClosure_idem : A.epsilonClosure (A.epsilonClosure S) = A.epsilonClosure S := by
  ext q
  simp only [mem_epsilonClosure]
  constructor
  · rintro ⟨p, ⟨s, hs, h⟩, h'⟩
    exact ⟨s, hs, h.trans h'⟩
  · rintro ⟨p, hp, h⟩
    exact ⟨q, ⟨p, hp, h⟩, .refl q⟩

/-! ## 3. Texts -/

/-- A path that consumes a character has epsilon transitions up to the one that consumes it. -/
theorem path_cons_iff {s u : State} {c : Char} {w : List Char} :
    A.Path s (c :: w) u ↔ ∃ p r cls, A.EpsilonPath s p ∧
      ⟨p, r, .consuming cls⟩ ∈ A.transitions ∧ cls.accepts c = true ∧ A.Path r w u := by
  constructor
  · intro path
    generalize hx : c :: w = x at path
    induction path with
    | refl => cases hx
    | skip edge _ ih =>
      obtain ⟨p, r, cls, h, rest⟩ := ih hx
      exact ⟨p, r, cls, .step edge h, rest⟩
    | consume edge hc rest =>
      injection hx with hcd hw
      subst hcd hw
      exact ⟨_, _, _, .refl _, edge, hc, rest⟩
  · rintro ⟨p, r, cls, h, edge, hc, rest⟩
    exact h.path.append (.consume edge hc rest)

/-- A path ends where it began or at the target of an edge. -/
theorem Path.target_cases {s u : State} {w : List Char} (path : A.Path s w u) :
    u = s ∨ ∃ t m, ⟨t, u, m⟩ ∈ A.transitions := by
  induction path with
  | refl => exact .inl rfl
  | skip edge _ ih =>
    rcases ih with rfl | h
    · exact .inr ⟨_, _, edge⟩
    · exact .inr h
  | consume edge _ _ ih =>
    rcases ih with rfl | h
    · exact .inr ⟨_, _, edge⟩
    · exact .inr h

/-- Reading on from a closed set follows the paths that begin in it. -/
theorem mem_foldl_advance {w : List Char} :
    q ∈ w.foldl A.advance (A.epsilonClosure S) ↔ ∃ p ∈ S, A.Path p w q := by
  -- After each character, the set is the closure of another one.
  induction w generalizing S with
  | nil => simp only [List.foldl_nil, mem_epsilonClosure, path_nil_iff]
  | cons c w ih =>
    rw [List.foldl_cons, advance, ih]
    simp only [mem_stepOn, mem_epsilonClosure, path_cons_iff]
    constructor
    · rintro ⟨r, ⟨p, ⟨s, hs, h⟩, cls, edge, hc⟩, path⟩
      exact ⟨s, hs, p, r, cls, h, edge, hc, path⟩
    · rintro ⟨s, hs, p, r, cls, h, edge, hc, path⟩
      exact ⟨r, ⟨p, ⟨s, hs, h⟩, cls, edge, hc⟩, path⟩

/-- Reading a text from the entry leads to the ends of its paths. -/
theorem mem_reached {w : List Char} : q ∈ A.reached w ↔ A.Path A.entry w q := by
  rw [reached, start, mem_foldl_advance]
  simp only [SortedSet.mem_singleton, exists_eq_left]

theorem reached_append_singleton (w : List Char) (c : Char) :
    A.reached (w ++ [c]) = A.advance (A.reached w) c := by
  simp [reached]

end Automaton

end JsonAutomata
