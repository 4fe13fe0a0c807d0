import JsonAutomata.Automaton.Thompson
import JsonAutomata.Proofs.Automaton.Assembly

/-!
# Fragments — where their edges lie

A fragment of a term uses its entry, its exit and the states of its interior, which are consecutive.
No edge enters the entry and none leaves the exit (`edge_between`), so fragments that share such
states do not disturb each other.  The copies of a repetition are told apart by the block that a
number lies in.
-/

namespace JsonAutomata

namespace Thompson

/-! ## 1. Equations for the edges -/

section Edges

variable (next : State) (entry exit : State)

theorem transitions_epsilon :
    (fragment .epsilon next entry exit).transitions = [⟨entry, exit, .epsilon⟩] := rfl

theorem transitions_one (cls : CharClass) :
    (fragment (.one cls) next entry exit).transitions = [⟨entry, exit, .consuming cls⟩] := rfl

theorem transitions_seq (l r : Term) :
    (fragment (.seq l r) next entry exit).transitions
      = (fragment l (next + 2) entry next).transitions
        ++ (fragment r (next + 2 + interior l) (next + 1) exit).transitions
        ++ [⟨next, next + 1, .epsilon⟩] := by
  simp [fragment]

theorem transitions_alt (l r : Term) :
    (fragment (.alt l r) next entry exit).transitions
      = (fragment l (next + 4) next (next + 1)).transitions
        ++ (fragment r (next + 4 + interior l) (next + 2) (next + 3)).transitions
        ++ [⟨entry, next, .epsilon⟩, ⟨entry, next + 2, .epsilon⟩,
          ⟨next + 1, exit, .epsilon⟩, ⟨next + 3, exit, .epsilon⟩] := by
  simp [fragment]

theorem transitions_star (t : Term) :
    (fragment (.star t) next entry exit).transitions
      = (fragment t (next + 2) next (next + 1)).transitions
        ++ [⟨entry, next, .epsilon⟩, ⟨entry, exit, .epsilon⟩,
          ⟨next + 1, next, .epsilon⟩, ⟨next + 1, exit, .epsilon⟩] := by
  simp [fragment]

def copy (t : Term) (next : State) (max : Nat) (entry exit : State) (i : Nat) : Automaton :=
  fragment t (innerFirst next (interior t) max i)
    (boundary next (interior t) max entry exit i) (boundary next (interior t) max entry exit (i + 1))

theorem transitions_times (t : Term) (min max : Nat) (ordered : min < max) :
    (fragment (.times t min max ordered) next entry exit).transitions
      = ((List.range max).flatMap fun i => (copy t next max entry exit i).transitions)
        ++ (List.range' min (max - min)).map fun i =>
          ⟨boundary next (interior t) max entry exit i, exit, .epsilon⟩ := by
  simp only [fragment]
  rw [Automaton.transitions_foldl_addTransition, Automaton.transitions_foldl_absorb]
  rfl

@[simp]
theorem entry_fragment (t : Term) : (fragment t next entry exit).entry = entry := by
  induction t generalizing next entry exit with
  | times t min max ordered _ =>
    have habsorb : ∀ (is : List Nat) (part : Nat → Automaton) (A : Automaton),
        (is.foldl (fun A i => A.absorb (part i)) A).entry = A.entry := by
      intro is part
      induction is with
      | nil => exact fun _ => rfl
      | cons i is ih => exact fun A => ih _
    have hadd : ∀ (is : List Nat) (source : Nat → State) (A : Automaton),
        (is.foldl (fun A i => A.addTransition (source i) exit .epsilon) A).entry = A.entry := by
      intro is source
      induction is with
      | nil => exact fun _ => rfl
      | cons i is ih => exact fun A => ih _
    simp only [fragment]
    rw [hadd, habsorb]
    rfl
  | labeled label t ih => exact ih next entry exit
  | _ => rfl

end Edges

/-! ## 2. The states between -/

def Inside (next : Nat) (t : Term) (q : Nat) : Prop := next ≤ q ∧ q < next + interior t

section Repetition

variable {next size max i : Nat} {entry exit : Nat}

theorem boundary_zero : boundary next size max entry exit 0 = entry := rfl

theorem boundary_max (h : 0 < max) : boundary next size max entry exit max = exit := by
  rw [boundary, if_neg (Nat.ne_of_gt h), if_pos rfl]

theorem boundary_succ (h : i + 1 < max) :
    boundary next size max entry exit (i + 1) = next + i * (1 + size) := by
  rw [boundary, if_neg (Nat.succ_ne_zero i), if_neg (Nat.ne_of_lt h), Nat.add_sub_cancel]

/-- A block ends before the next one begins. -/
theorem block_le (size : Nat) (h : i < max) : i * (1 + size) + (1 + size) ≤ max * (1 + size) := by
  rw [← Nat.succ_mul]
  exact Nat.mul_le_mul_right _ h

/-- A copy lies in its block. -/
theorem innerFirst_bounds (next size : Nat) (h : i < max) :
    next + i * (1 + size) ≤ innerFirst next size max i ∧
      size + innerFirst next size max i < next + max * (1 + size) := by
  have hblock := block_le size h
  unfold innerFirst
  split
  · omega
  · rename_i hlast
    have hnext := block_le size (Nat.lt_of_le_of_ne h hlast)
    rw [Nat.succ_mul] at hnext
    omega

theorem le_innerFirst (next size max i : Nat) : next ≤ innerFirst next size max i := by
  have hblock := Nat.le_add_right next (i * (1 + size))
  unfold innerFirst
  split <;> omega

theorem interior_times (t : Term) (min max : Nat) (ordered : min < max) :
    interior (.times t min max ordered) + 1 = max * (1 + interior t) := by
  obtain ⟨m, rfl⟩ : ∃ m, max = m + 1 := ⟨max - 1, by omega⟩
  simp only [interior, Nat.add_sub_cancel, Nat.succ_mul]
  omega

/-- The stops of a repetition are its entry, its exit, and states between. -/
theorem boundary_cases {t : Term} {min : Nat} {ordered : min < max} (h : i ≤ max) :
    (i = 0 ∧ boundary next (interior t) max entry exit i = entry) ∨
      (i = max ∧ boundary next (interior t) max entry exit i = exit) ∨
      Inside next (.times t min max ordered) (boundary next (interior t) max entry exit i) := by
  cases i with
  | zero => exact .inl ⟨rfl, rfl⟩
  | succ j =>
    rcases Nat.lt_or_ge (j + 1) max with hlt | hge
    · have hblock := block_le (interior t) hlt
      rw [Nat.succ_mul] at hblock
      have hsize := interior_times t min max ordered
      refine .inr (.inr ?_)
      rw [Inside, boundary_succ hlt]
      omega
    · obtain rfl : j + 1 = max := Nat.le_antisymm h hge
      exact .inr (.inl ⟨rfl, boundary_max (Nat.succ_pos j)⟩)

/-- The interior of a copy is part of the interior of the repetition. -/
theorem Inside.of_copy {t : Term} {min q : Nat} {ordered : min < max} (hi : i < max)
    (h : Inside (innerFirst next (interior t) max i) t q) :
    Inside next (.times t min max ordered) q := by
  have hbounds := innerFirst_bounds next (interior t) hi
  have hsize := interior_times t min max ordered
  have hge := Nat.le_add_right next (i * (1 + interior t))
  unfold Inside at h ⊢
  omega

end Repetition

/-- Edges of a fragment begin at the entry or inside, and end at the exit or inside. -/
theorem edge_between {t : Term} {next entry exit : Nat} {s u : Nat} {m : Matcher}
    (he : ⟨s, u, m⟩ ∈ (fragment t next entry exit).transitions) :
    (s = entry ∨ Inside next t s) ∧ (u = exit ∨ Inside next t u) := by
  -- The ends of a part are ends of the whole or new numbers, and its interior lies behind these.
  induction t generalizing next entry exit with
  | epsilon =>
    cases List.mem_singleton.1 he
    exact ⟨.inl rfl, .inl rfl⟩
  | one cls =>
    cases List.mem_singleton.1 he
    exact ⟨.inl rfl, .inl rfl⟩
  | seq l r ihl ihr =>
    rw [transitions_seq, List.mem_append, List.mem_append, List.mem_singleton] at he
    simp only [Inside, interior] at ihl ihr ⊢
    rcases he with (he | he) | he
    · have h := ihl he
      omega
    · have h := ihr he
      omega
    · cases he
      omega
  | alt l r ihl ihr =>
    rw [transitions_alt, List.mem_append, List.mem_append] at he
    simp only [Inside, interior] at ihl ihr ⊢
    rcases he with (he | he) | he
    · have h := ihl he
      omega
    · have h := ihr he
      omega
    · simp only [List.mem_cons, List.not_mem_nil, or_false] at he
      rcases he with he | he | he | he <;> cases he <;> omega
  | star t ih =>
    rw [transitions_star, List.mem_append] at he
    simp only [Inside, interior] at ih ⊢
    rcases he with he | he
    · have h := ih he
      omega
    · simp only [List.mem_cons, List.not_mem_nil, or_false] at he
      rcases he with he | he | he | he <;> cases he <;> omega
  | times t min max ordered ih =>
    rw [transitions_times, List.mem_append, List.mem_flatMap, List.mem_map] at he
    rcases he with ⟨i, hi, he⟩ | ⟨i, hi, he⟩
    · have hi := List.mem_range.1 hi
      have ⟨hs, hu⟩ := ih he
      constructor
      · rcases hs with rfl | hs
        · -- A copy begins at a stop that is not the last one.
          rcases boundary_cases (Nat.le_of_lt hi) with ⟨-, hb⟩ | ⟨hmax, -⟩ | hb
          · exact .inl hb
          · omega
          · exact .inr hb
        · exact .inr (hs.of_copy hi)
      · rcases hu with rfl | hu
        · -- It ends at a stop that is not the first one.
          rcases boundary_cases (Nat.succ_le_of_lt hi) with ⟨h0, -⟩ | ⟨-, hb⟩ | hb
          · omega
          · exact .inl hb
          · exact .inr hb
        · exact .inr (hu.of_copy hi)
    · cases he
      have hi := List.mem_range'_1.1 hi
      have hle : i ≤ max := by omega
      refine ⟨?_, .inl rfl⟩
      -- An edge that leaves early begins before the last copy.
      rcases boundary_cases hle with ⟨-, hb⟩ | ⟨hmax, -⟩ | hb
      · exact .inl hb
      · omega
      · exact .inr hb
  | labeled label t ih => exact ih he

end Thompson

end JsonAutomata
