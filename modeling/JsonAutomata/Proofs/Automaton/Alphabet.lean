import JsonAutomata.Proofs.Automaton.Merging

/-!
# Alphabets — the classes on the transitions

Every automaton is put together by four operations (`Assembled`), each of which updates states, final
states, classes and transitions apart from each other.  That these belong together is an invariant of
all four: the automaton is well formed, and its alphabet holds the classes on its transitions and no
others (`Assembled.mem_alphabet_iff`).  So a character is read by the classes of the alphabet that
accept it (`Assembled.stepOn_eq`).
-/

namespace JsonAutomata

universe u

/-! ## 1. Unions -/

namespace SortedSet

variable {α : Type u} [Ord α] [Std.TransOrd α] [Std.LawfulEqOrd α] {a : α}

def unions (sets : List (SortedSet α)) : SortedSet α := sets.foldr (· ∪ ·) ∅

theorem mem_unions {sets : List (SortedSet α)} : a ∈ unions sets ↔ ∃ s ∈ sets, a ∈ s := by
  induction sets with
  | nil => simp [unions]
  | cons s sets ih =>
    show a ∈ s ∪ unions sets ↔ _
    rw [mem_union, ih, List.exists_mem_cons_iff]

omit [Std.TransOrd α] in
theorem nodup_toList (s : SortedSet α) : s.toList.Nodup := by
  refine s.ascending.imp fun {a b} hab => ?_
  rintro rfl
  exact Ascending.Before.irrefl a hab

end SortedSet

theorem SortedMap.mem_keys {ν : Type u} {m : SortedMap State ν} {q : State} :
    q ∈ m.keys ↔ ∃ value, m.get? q = some value := by
  show q ∈ m.toList.map Prod.fst ↔ _
  unfold SortedMap.get?
  simp only [Entries.lookup_eq_some_iff m.ascending, List.mem_map]
  constructor
  · rintro ⟨⟨q, value⟩, he, rfl⟩
    exact ⟨value, he⟩
  · rintro ⟨value, he⟩
    exact ⟨(q, value), he, rfl⟩

namespace Automaton

variable {A B : Automaton} {q : State} {cls : CharClass} {c : Char} {S : StateSet}

theorem mem_finalStates : q ∈ A.finalStates ↔ ∃ label, A.label? q = some label :=
  SortedMap.mem_keys

/-! ## 2. Assembled automata -/

/-- Put together by adding edges, marking final states and absorbing other automata. -/
inductive Assembled : Automaton → Prop
  | ofEntry (entry : State) : Assembled (ofEntry entry)
  | addTransition {A : Automaton} (h : Assembled A) (s u : State) (m : Matcher) :
      Assembled (A.addTransition s u m)
  | markFinal {A : Automaton} (h : Assembled A) (s : State) (label : Label) :
      Assembled (A.markFinal s label)
  | absorb {A B : Automaton} (hA : Assembled A) (hB : Assembled B) : Assembled (A.absorb B)

namespace Assembled

theorem wellFormed (h : A.Assembled) : A.WellFormed := by
  induction h with
  | ofEntry entry => exact wellFormed_ofEntry entry
  | addTransition _ s u m ih => exact ih.addTransition s u m
  | markFinal _ s label ih => exact ih.markFinal s label
  | absorb _ _ ihA ihB => exact ihA.absorb ihB

theorem foldl_absorb {α : Type} (h : A.Assembled) (part : α → Automaton)
    (hpart : ∀ a, (part a).Assembled) (as : List α) :
    (as.foldl (fun A a => A.absorb (part a)) A).Assembled :=
  List.foldlRecOn as _ h fun _ hA a _ => hA.absorb (hpart a)

theorem foldl_addTransition {α : Type} (h : A.Assembled) (source : α → State) (target : State)
    (as : List α) :
    (as.foldl (fun A a => A.addTransition (source a) target .epsilon) A).Assembled :=
  List.foldlRecOn as _ h fun _ hA a _ => hA.addTransition (source a) target .epsilon

theorem merge {entry : State} {parts : List Automaton} (h : ∀ A ∈ parts, A.Assembled) :
    (merge entry parts).Assembled :=
  List.foldlRecOn parts _ (.ofEntry entry) fun _ hA part hpart =>
    (hA.absorb (h part hpart)).addTransition entry part.entry .epsilon

/-! ## 3. Alphabets -/

theorem mem_alphabet_iff (h : A.Assembled) :
    cls ∈ A.alphabet ↔ ∃ e ∈ A.transitions, e.matcher = .consuming cls := by
  induction h with
  | ofEntry entry =>
    show cls ∈ (∅ : SortedSet CharClass) ↔ ∃ e ∈ [], _
    simp
  | @addTransition A _ s u m ih =>
    simp only [transitions_addTransition, List.mem_append, List.mem_singleton, or_and_right,
      exists_or, exists_eq_left, ← ih]
    cases m with
    | epsilon =>
      show cls ∈ A.alphabet ↔ _
      simp
    | consuming own =>
      show cls ∈ A.alphabet.insert own ↔ _
      rw [SortedSet.mem_insert, or_comm, Matcher.consuming.injEq, eq_comm]
  | markFinal _ _ _ ih => exact ih
  | @absorb A B _ _ ihA ihB =>
    show cls ∈ A.alphabet ∪ B.alphabet ↔ _
    simp only [SortedSet.mem_union, transitions_absorb, List.mem_append, or_and_right, exists_or,
      ihA, ihB]

end Assembled

theorem mem_stepOver : q ∈ A.stepOver cls S ↔ ∃ p ∈ S, ⟨p, q, .consuming cls⟩ ∈ A.transitions := by
  rw [stepOver, mem_step]
  constructor
  · rintro ⟨⟨p, r, m⟩, ht, hs, hf, rfl⟩
    cases m with
    | epsilon => cases hf
    | consuming own =>
      obtain rfl : own = cls := of_decide_eq_true hf
      exact ⟨p, hs, ht⟩
  · rintro ⟨p, hp, ht⟩
    exact ⟨_, ht, hp, decide_eq_true rfl, rfl⟩

/-- A character leads where the classes of the alphabet lead that accept it. -/
theorem Assembled.stepOn_eq (h : A.Assembled) (c : Char) (S : StateSet) :
    A.stepOn c S
      = .unions ((A.alphabet.filter (·.accepts c)).toList.map fun cls => A.stepOver cls S) := by
  ext q
  simp only [mem_stepOn, SortedSet.mem_unions, List.mem_map, SortedSet.mem_toList,
    SortedSet.mem_filter, h.mem_alphabet_iff]
  constructor
  · rintro ⟨p, hp, cls, he, hc⟩
    exact ⟨_, ⟨cls, ⟨⟨_, he, rfl⟩, hc⟩, rfl⟩, mem_stepOver.2 ⟨p, hp, he⟩⟩
  · rintro ⟨_, ⟨cls, ⟨-, hc⟩, rfl⟩, hq⟩
    obtain ⟨p, hp, he⟩ := mem_stepOver.1 hq
    exact ⟨p, hp, cls, he, hc⟩

end Automaton

end JsonAutomata
