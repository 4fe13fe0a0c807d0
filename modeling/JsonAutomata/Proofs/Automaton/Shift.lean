import JsonAutomata.Proofs.Automaton.Assembly
import JsonAutomata.Proofs.Automaton.Reachability

/-!
# Shifts — automata with other numbers

Adding the same number to all states changes neither what an automaton reads nor what it reports: it
keeps the order of the states, on which priority rests (`bestLabel_reached_shift`).
-/

namespace JsonAutomata

/-! ## 1. Sets and maps of states -/

theorem compare_add_right (a b k : Nat) : compare (a + k) (b + k) = compare a b := by
  simp only [Nat.compare_eq_ite_lt, Nat.add_lt_add_iff_right]

namespace SortedSet

def shift (k : Nat) (s : SortedSet Nat) : SortedSet Nat :=
  ⟨s.toList.map (· + k), List.pairwise_map.2 <|
    s.ascending.imp fun {a b} hab => (compare_add_right a b k).trans hab⟩

variable {k a : Nat} {s t : SortedSet Nat}

theorem mem_shift : a ∈ s.shift k ↔ ∃ b ∈ s, b + k = a := List.mem_map

theorem shift_insert : (s.insert a).shift k = (s.shift k).insert (a + k) := by
  ext b
  simp [mem_shift, eq_comm, or_and_right, exists_or]

theorem shift_union : (s ∪ t).shift k = s.shift k ∪ t.shift k := by
  ext b
  simp [mem_shift, or_and_right, exists_or]

end SortedSet

namespace Entries

variable {ν : Type} (k key : Nat) (value : ν) (entries : List (Nat × ν))

theorem insert_map_shift : insert (key + k) value (entries.map fun e => (e.1 + k, e.2))
    = (insert key value entries).map fun e => (e.1 + k, e.2) := by
  induction entries with
  | nil => rfl
  | cons e rest ih =>
    simp only [List.map_cons, insert, compare_add_right, ih]
    split <;> rfl

theorem lookup_map_shift :
    lookup (key + k) (entries.map fun e => (e.1 + k, e.2)) = lookup key entries := by
  induction entries with
  | nil => rfl
  | cons e rest ih => simp only [List.map_cons, lookup, compare_add_right, ih]

end Entries

namespace SortedMap

variable {ν : Type}

def shift (k : Nat) (m : SortedMap Nat ν) : SortedMap Nat ν :=
  ⟨m.toList.map fun e => (e.1 + k, e.2), List.pairwise_map.2 <|
    m.ascending.imp fun {a b} hab => (compare_add_right a.1 b.1 k).trans hab⟩

theorem get?_shift (m : SortedMap Nat ν) (k key : Nat) : (m.shift k).get? (key + k) = m.get? key :=
  Entries.lookup_map_shift k key m.toList

theorem toList_inj {s t : SortedMap Nat ν} (h : s.toList = t.toList) : s = t := by
  cases s
  cases t
  cases h
  rfl

theorem shift_insert (m : SortedMap Nat ν) (k key : Nat) (value : ν) :
    (m.insert key value).shift k = (m.shift k).insert (key + k) value :=
  toList_inj (Entries.insert_map_shift k key value m.toList).symm

theorem shift_override (s t : SortedMap Nat ν) (k : Nat) :
    (s.override t).shift k = (s.shift k).override (t.shift k) := by
  have hfold : ∀ (pairs : List (Nat × ν)) (m : SortedMap Nat ν),
      (pairs.foldl (fun m e => m.insert e.1 e.2) m).shift k
        = (pairs.map fun e => (e.1 + k, e.2)).foldl (fun m e => m.insert e.1 e.2) (m.shift k) := by
    intro pairs
    induction pairs with
    | nil => exact fun _ => rfl
    | cons p ps ih =>
      intro m
      rw [List.foldl_cons, ih, shift_insert]
      rfl
  exact hfold t.toList s

end SortedMap

def Transition.shift (k : Nat) (t : Transition) : Transition :=
  ⟨t.source + k, t.target + k, t.matcher⟩

namespace Automaton

def shift (k : Nat) (A : Automaton) : Automaton where
  entry := A.entry + k
  states := A.states.shift k
  finals := A.finals.shift k
  alphabet := A.alphabet
  transitions := A.transitions.map (Transition.shift k)

variable {A B : Automaton} {k : Nat}

/-! ## 2. Assembly -/

theorem shift_ofEntry (entry : State) : (ofEntry entry).shift k = ofEntry (entry + k) := rfl

theorem shift_addTransition (s t : State) (m : Matcher) :
    (A.addTransition s t m).shift k = (A.shift k).addTransition (s + k) (t + k) m := by
  simp only [shift, addTransition, SortedSet.shift_insert, List.map_append]
  rfl

theorem shift_markFinal (s : State) (label : Label) :
    (A.markFinal s label).shift k = (A.shift k).markFinal (s + k) label := by
  simp only [shift, markFinal, SortedSet.shift_insert, SortedMap.shift_insert]

theorem shift_absorb : (A.absorb B).shift k = (A.shift k).absorb (B.shift k) := by
  simp only [shift, absorb, SortedSet.shift_union, SortedMap.shift_override, List.map_append]

theorem shift_foldl_absorb {α : Type} (part : α → Automaton) (as : List α) :
    (as.foldl (fun A a => A.absorb (part a)) A).shift k
      = as.foldl (fun A a => A.absorb ((part a).shift k)) (A.shift k) := by
  induction as generalizing A with
  | nil => rfl
  | cons a as ih => rw [List.foldl_cons, ih, shift_absorb, List.foldl_cons]

theorem shift_foldl_addTransition {α : Type} (source : α → State) (target : State) (as : List α) :
    (as.foldl (fun A a => A.addTransition (source a) target .epsilon) A).shift k
      = as.foldl (fun A a => A.addTransition (source a + k) (target + k) .epsilon) (A.shift k) := by
  induction as generalizing A with
  | nil => rfl
  | cons a as ih => rw [List.foldl_cons, ih, shift_addTransition, List.foldl_cons]

/-! ## 3. What is read and reported -/

@[simp]
theorem label?_shift (q : State) : (A.shift k).label? (q + k) = A.label? q :=
  A.finals.get?_shift k q

theorem mem_transitions_shift {e : Transition} :
    e ∈ (A.shift k).transitions ↔ ∃ t ∈ A.transitions, t.shift k = e := List.mem_map

theorem Path.shift {s u : State} {w : List Char} (h : A.Path s w u) (k : Nat) :
    (A.shift k).Path (s + k) w (u + k) := by
  induction h with
  | refl => exact .refl _
  | skip edge _ ih => exact .skip (mem_transitions_shift.2 ⟨_, edge, rfl⟩) ih
  | consume edge accepts _ ih =>
    exact .consume (mem_transitions_shift.2 ⟨_, edge, rfl⟩) accepts ih

theorem edge_of_shift {s u : State} {m : Matcher} (h : ⟨s + k, u, m⟩ ∈ (A.shift k).transitions) :
    ∃ t, ⟨s, t, m⟩ ∈ A.transitions ∧ t + k = u := by
  rcases mem_transitions_shift.1 h with ⟨⟨p, t, m⟩, he, heq⟩
  injection heq with hsource htarget hmatcher
  have hs : p = s := Nat.add_right_cancel hsource
  subst hs hmatcher
  exact ⟨t, he, htarget⟩

/-- From a shifted state the shifted automaton takes shifted paths only. -/
theorem exists_path_of_shift {s u : State} {w : List Char} (h : (A.shift k).Path (s + k) w u) :
    ∃ t, A.Path s w t ∧ t + k = u := by
  generalize hs : s + k = source at h
  induction h generalizing s with
  | refl => exact ⟨s, .refl s, hs⟩
  | skip edge _ ih =>
    subst hs
    rcases edge_of_shift edge with ⟨r, he, rfl⟩
    rcases ih rfl with ⟨t, path, ht⟩
    exact ⟨t, .skip he path, ht⟩
  | consume edge accepts _ ih =>
    subst hs
    rcases edge_of_shift edge with ⟨r, he, rfl⟩
    rcases ih rfl with ⟨t, path, ht⟩
    exact ⟨t, .consume he accepts path, ht⟩

theorem mem_reached_shift {q : State} {w : List Char} :
    q ∈ (A.shift k).reached w ↔ ∃ p ∈ A.reached w, p + k = q := by
  simp only [mem_reached]
  constructor
  · exact exists_path_of_shift
  · rintro ⟨p, path, rfl⟩
    exact path.shift k

/-- A shift keeps what is reported for a text. -/
theorem bestLabel_reached_shift {w : List Char} {label : Label} :
    (A.shift k).bestLabel ((A.shift k).reached w) = some label ↔
      A.bestLabel (A.reached w) = some label := by
  simp only [bestLabel_eq_some_iff, mem_reached_shift]
  constructor
  · rintro ⟨_, ⟨p, hp, rfl⟩, hlabel, hsmaller⟩
    rw [label?_shift] at hlabel
    refine ⟨p, hp, hlabel, fun r hr hlt => ?_⟩
    rw [← label?_shift (k := k)]
    exact hsmaller (r + k) ⟨r, hr, rfl⟩ (Nat.add_lt_add_right hlt k)
  · rintro ⟨p, hp, hlabel, hsmaller⟩
    refine ⟨p + k, ⟨p, hp, rfl⟩, (label?_shift p).trans hlabel, ?_⟩
    rintro _ ⟨r, hr, rfl⟩ hlt
    rw [label?_shift]
    exact hsmaller r hr (Nat.lt_of_add_lt_add_right hlt)

end Automaton

end JsonAutomata
