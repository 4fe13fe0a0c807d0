import JsonAutomata.Proofs.Thompson.Allocation
import JsonAutomata.Proofs.Thompson.Correctness
import JsonAutomata.Proofs.Thompson.States
import Mathlib.Logic.Function.Basic

/-!
# Constructions — builders through any sequence of calls

A construction is a number of builders with the automata that have been made by them so far.  Each
call keeps what has been made, adds an assembled automaton to it or none, and moves no counter back.
So every automaton that any calls make is well formed and has the alphabet of its transitions, and
each build takes a range of states that no build before it has had (`automata_consistent`).
-/

namespace JsonAutomata

open Thompson

/-! ## 1. The states of a build -/

namespace Builder

variable {t u : Term} {b b' : Builder} {q : Nat}

theorem allocated_build (t : Term) (b : Builder) :
    (b.build t).2.allocated = b.allocated + 2 + interior t := rfl

theorem mem_states_build :
    q ∈ (b.build t).1.states ↔ b.allocated ≤ q ∧ q < (b.build t).2.allocated := by
  rw [build_fst, mem_states_fragment, allocated_build, Inside]
  omega

/-- A build takes all numbers from the first free one up to the next free one. -/
theorem states_build (t : Term) (b : Builder) :
    (b.build t).1.states.toList
      = List.range' b.allocated ((b.build t).2.allocated - b.allocated) := by
  have hasc : (List.range' b.allocated ((b.build t).2.allocated - b.allocated)).Pairwise
      Ascending.Before := List.Pairwise.imp Nat.compare_eq_lt.2 List.pairwise_lt_range'
  refine Ascending.eq_of_mem_iff (b.build t).1.states.ascending hasc fun q => ?_
  rw [SortedSet.mem_toList, mem_states_build, List.mem_range'_1]
  omega

theorem disjoint_build (h : (b.build t).2.allocated ≤ b'.allocated) :
    Automaton.DisjointStates (b.build t).1 (b'.build u).1 := by
  intro q hq hq'
  have hlt := (mem_states_build.1 hq).2
  have hle := (mem_states_build.1 hq').1
  omega

end Builder

/-! ## 2. Calls -/

/-- Builders, which are known by numbers, and the automata made so far. -/
structure Construction where
  builders : Nat → Builder
  made : List Automaton

namespace Construction

/-- A call of a builder, or a merge of automata that are known by their places among those made. -/
inductive Call where
  | fresh (i : Nat)
  | build (i : Nat) (t : Term)
  | buildBetween (i : Nat) (t : Term) (entry exit : State)
  | merge (entry : State) (places : List Nat)

def start : Construction := ⟨fun _ => .new, []⟩

def keep (s : Construction) (i : Nat) (made : Automaton × Builder) : Construction :=
  ⟨Function.update s.builders i made.2, s.made ++ [made.1]⟩

def call (s : Construction) : Call → Construction
  | .fresh i => { s with builders := Function.update s.builders i (s.builders i).fresh.2 }
  | .build i t => s.keep i ((s.builders i).build t)
  | .buildBetween i t entry exit => s.keep i ((s.builders i).buildBetween t entry exit)
  | .merge entry places =>
    { s with made := s.made ++ [.merge entry (places.filterMap fun place => s.made[place]?)] }

def run (s : Construction) (calls : List Call) : Construction := calls.foldl call s

variable {s : Construction} {i j : Nat}

/-- What each call keeps is kept by any sequence of calls. -/
theorem run_induction {P : Construction → Prop} (hcall : ∀ s c, P s → P (s.call c)) (h : P s)
    (calls : List Call) : P (s.run calls) := by
  induction calls generalizing s with
  | nil => exact h
  | cons c calls ih => exact ih (hcall s c h)

theorem assembled_append (h : ∀ A ∈ s.made, A.Assembled) {B : Automaton} (hB : B.Assembled) :
    ∀ A ∈ s.made ++ [B], A.Assembled := by
  intro A hA
  rcases List.mem_append.1 hA with hA | hA
  · exact h A hA
  · rw [List.mem_singleton.1 hA]
    exact hB

theorem assembled_call (h : ∀ A ∈ s.made, A.Assembled) (c : Call) :
    ∀ A ∈ (s.call c).made, A.Assembled := by
  cases c with
  | fresh i => exact h
  | build i t => exact assembled_append h (assembled_fragment _ _ _ _)
  | buildBetween i t entry exit => exact assembled_append h (assembled_fragment _ _ _ _)
  | merge entry places =>
    have hparts : ∀ A ∈ places.filterMap fun place => s.made[place]?, A.Assembled := by
      intro A hA
      obtain ⟨place, -, hplace⟩ := List.mem_filterMap.1 hA
      exact h A (List.mem_of_getElem? hplace)
    exact assembled_append h (.merge hparts)

theorem assembled_run (h : ∀ A ∈ s.made, A.Assembled) (calls : List Call) :
    ∀ A ∈ (s.run calls).made, A.Assembled :=
  run_induction (P := fun s => ∀ A ∈ s.made, A.Assembled) (fun _ c hs => assembled_call hs c) h
    calls

theorem allocated_le_update {made : Builder} (h : (s.builders j).allocated ≤ made.allocated) :
    (s.builders i).allocated ≤ (Function.update s.builders j made i).allocated := by
  by_cases hij : i = j
  · rw [hij, Function.update_self]
    exact h
  · rw [Function.update_of_ne hij]

theorem allocated_le_call (c : Call) :
    (s.builders i).allocated ≤ ((s.call c).builders i).allocated := by
  cases c with
  | fresh j => exact allocated_le_update (Nat.le_succ _)
  | build j t =>
    refine allocated_le_update ?_
    rw [Builder.allocated_build]
    omega
  | buildBetween j t entry exit => exact allocated_le_update (Nat.le_add_right _ (interior t))
  | merge entry places => exact Nat.le_refl _

theorem allocated_le_run (calls : List Call) :
    (s.builders i).allocated ≤ ((s.run calls).builders i).allocated := by
  refine run_induction (P := fun s' => (s.builders i).allocated ≤ (s'.builders i).allocated)
    (fun s' c hs => ?_) (Nat.le_refl _) calls
  exact Nat.le_trans hs (allocated_le_call c)

/-- Two builds by one builder share no state, whatever is called between them. -/
theorem disjoint_builds (s : Construction) (i : Nat) (t u : Term) (between : List Call) :
    Automaton.DisjointStates ((s.builders i).build t).1
      ((((s.call (.build i t)).run between).builders i).build u).1 := by
  apply Builder.disjoint_build
  have hbuilder : (s.call (.build i t)).builders i = ((s.builders i).build t).2 :=
    Function.update_self _ _ _
  rw [← hbuilder]
  exact allocated_le_run between

/-! ## 3. What all calls keep -/

/-- Whatever the calls, each automaton that they make has its entry, the ends of its transitions and
its final states among its states, and its alphabet lists the classes on its transitions, each of
them once.  So the states that a character leads to are those to which the classes lead that accept
it.  After these calls a builder compiles a term to an automaton that has all states from the first
free number up to the next free one and shares none with any later build, and these are the numbers
that the builder hands out one by one. -/
theorem automata_consistent (calls : List Call) :
    let s := start.run calls
    (∀ A ∈ s.made, A.entry ∈ A.states ∧
      (∀ e ∈ A.transitions, e.source ∈ A.states ∧ e.target ∈ A.states) ∧
      (∀ q ∈ A.finalStates, q ∈ A.states) ∧
      (∀ cls, cls ∈ A.alphabet ↔ ∃ e ∈ A.transitions, e.matcher = .consuming cls) ∧
      A.alphabet.toList.Nodup ∧
      ∀ S c, A.stepOn c S
        = .unions ((A.alphabet.filter (·.accepts c)).toList.map fun cls => A.stepOver cls S)) ∧
    ∀ (i : Nat) (t : Term),
      let b := s.builders i
      (b.build t).1.states.toList
        = List.range' b.allocated ((b.build t).2.allocated - b.allocated) ∧
      (∀ (between : List Call) (u : Term), Automaton.DisjointStates (b.build t).1
        ((((s.call (.build i t)).run between).builders i).build u).1) ∧
      ∀ entry exit, Builder.assemble t entry exit b = b.buildBetween t entry exit := by
  intro s
  have hnone : ∀ A ∈ start.made, A.Assembled := fun A hA => absurd hA List.not_mem_nil
  have hassembled : ∀ A ∈ s.made, A.Assembled := assembled_run hnone calls
  refine ⟨fun A hA => ?_, fun i t => ?_⟩
  · have h := hassembled A hA
    have hwell := h.wellFormed
    have hfinal : ∀ q ∈ A.finalStates, q ∈ A.states := by
      intro q hq
      obtain ⟨label, hlabel⟩ := Automaton.mem_finalStates.1 hq
      exact hwell.final_mem q label hlabel
    exact ⟨hwell.entry_mem, hwell.ends_mem, hfinal, fun cls => h.mem_alphabet_iff,
      A.alphabet.nodup_toList, fun S c => h.stepOn_eq c S⟩
  · exact ⟨Builder.states_build t _, fun between u => disjoint_builds s i t u between,
      fun entry exit => Builder.assemble_eq t entry exit _⟩

/-- A digit compiled twice, and both automata under a common entry: one class all along. -/
example : ((start.run [.fresh 0, .build 0 (.one .digits), .build 0 (.one .digits),
    .merge 0 [0, 1]]).made.map fun A => (A.states.toList, A.alphabet.size))
      = [([1, 2], 1), ([3, 4], 1), ([0, 1, 2, 3, 4], 1)] := by
  decide

end Construction

end JsonAutomata
