import JsonAutomata.Automaton.Allocation
import JsonAutomata.Proofs.Thompson.Fragment

/-!
# Allocation — where the counter stands

A builder that hands out states one by one gives a fragment the numbers that the construction
computes for it, and is left behind the last of them (`assemble_eq`).  The chain of a repetition is
followed copy by copy: after each one the automaton, the stops and the counter are known
(`chained_eq`).
-/

namespace JsonAutomata

namespace Builder

open Thompson

variable {t : Term} {next max n entry exit : Nat} {b : Builder}

/-! ## 1. Chains of copies -/

def chained (t : Term) (max : Nat) (entry exit : State) (b : Builder) (n : Nat) : Chain :=
  (List.range' 1 n).foldl (Chain.extend (assemble t) max entry exit)
    ⟨Automaton.ofEntry entry, [entry], b⟩

theorem chained_succ :
    chained t max entry exit b (n + 1)
      = (chained t max entry exit b n).extend (assemble t) max entry exit (n + 1) := by
  unfold chained
  rw [List.range'_1_concat, List.foldl_append, Nat.add_comm 1 n]
  rfl

/-- Where the counter stands after the first `n` of `max` copies.  There is no stop behind the last
one. -/
def counterAfter (t : Term) (next max n : Nat) : Nat :=
  if n = max then next + ((max - 1) * (1 + interior t) + interior t)
  else next + n * (1 + interior t)

theorem counterAfter_of_lt (h : n < max) :
    counterAfter t next max n = next + n * (1 + interior t) := if_neg (Nat.ne_of_lt h)

/-- The stop behind a copy, and where the counter stands when the copy begins. -/
theorem stop_eq (h : n < max) :
    (if n + 1 = max then (exit, ⟨counterAfter t next max n⟩)
      else Builder.fresh ⟨counterAfter t next max n⟩)
      = (boundary next (interior t) max entry exit (n + 1),
        ⟨innerFirst next (interior t) max n⟩) := by
  rw [counterAfter_of_lt h, innerFirst]
  by_cases hlast : n + 1 = max
  · rw [if_pos hlast, if_pos hlast, hlast, boundary_max (by omega)]
  · rw [if_neg hlast, if_neg hlast, boundary_succ (by omega)]
    rfl

theorem innerFirst_add_interior (h : n < max) :
    innerFirst next (interior t) max n + interior t = counterAfter t next max (n + 1) := by
  unfold innerFirst
  by_cases hlast : n + 1 = max
  · rw [if_pos hlast, counterAfter, if_pos hlast, ← hlast, Nat.add_sub_cancel, Nat.add_assoc]
  · rw [if_neg hlast, counterAfter_of_lt (by omega), Nat.succ_mul, Nat.add_assoc, Nat.add_assoc]

def Agrees (t : Term) : Prop := ∀ entry exit b,
  assemble t entry exit b = (fragment t b.allocated entry exit, ⟨b.allocated + interior t⟩)

theorem Agrees.chained_eq (h : Agrees t) (entry exit : State) (b : Builder) (hn : n ≤ max)
    (hmax : 0 < max) :
    chained t max entry exit b n
      = ⟨(List.range n).foldl (fun A i => A.absorb (copy t b.allocated max entry exit i))
          (Automaton.ofEntry entry),
        (List.range (n + 1)).map (boundary b.allocated (interior t) max entry exit),
        ⟨counterAfter t b.allocated max n⟩⟩ := by
  induction n with
  | zero =>
    rw [counterAfter_of_lt hmax, Nat.zero_mul]
    rfl
  | succ n ih =>
    rw [chained_succ, ih (Nat.le_of_succ_le hn), Chain.extend]
    -- The copy begins at the last of the stops so far, which is the one behind copy `n`.
    simp only [List.range_succ, List.map_append, List.map_singleton, List.getLastD_concat,
      List.foldl_append, List.foldl_cons, List.foldl_nil]
    rw [stop_eq hn]
    dsimp only
    rw [h, innerFirst_add_interior hn]
    rfl

/-! ## 2. The construction -/

theorem agrees_times {min : Nat} {ordered : min < max} (h : Agrees t) :
    Agrees (.times t min max ordered) := by
  intro entry exit b
  have hchain := h.chained_eq entry exit b (Nat.le_refl max) (by omega)
  have hearly : ((List.range (max + 1)).take max).drop min = List.range' min (max - min) := by
    rw [List.take_range, Nat.min_eq_left (Nat.le_succ max), List.range_eq_range', List.drop_range',
      Nat.zero_add, Nat.mul_one]
  rw [counterAfter, if_pos rfl] at hchain
  unfold chained at hchain
  rw [assemble, hchain]
  dsimp only
  rw [List.map_take.symm, List.map_drop.symm, hearly, List.foldl_map]
  rfl

theorem agrees (t : Term) : Agrees t := by
  induction t with
  | epsilon => exact fun _ _ _ => rfl
  | one cls => exact fun _ _ _ => rfl
  | seq l r ihl ihr =>
    intro entry exit b
    have hsum : b.allocated + interior (.seq l r) = b.allocated + 2 + interior l + interior r := by
      simp only [Thompson.interior, Nat.add_assoc]
    rw [hsum]
    simp only [assemble, fresh, ihl _ _ _, ihr _ _ _]
    rfl
  | alt l r ihl ihr =>
    intro entry exit b
    have hsum : b.allocated + interior (.alt l r) = b.allocated + 4 + interior l + interior r := by
      simp only [Thompson.interior, Nat.add_assoc]
    rw [hsum]
    simp only [assemble, fresh, ihl _ _ _, ihr _ _ _]
    rfl
  | star t ih =>
    intro entry exit b
    have hsum : b.allocated + interior (.star t) = b.allocated + 2 + interior t :=
      (Nat.add_assoc _ _ _).symm
    rw [hsum]
    simp only [assemble, fresh, ih _ _ _]
    rfl
  | times t min max ordered ih => exact agrees_times ih
  | labeled label t ih =>
    intro entry exit b
    rw [assemble, ih]
    rfl

/-- Handing out states one by one, a builder makes the fragment that the construction computes. -/
theorem assemble_eq (t : Term) (entry exit : State) (b : Builder) :
    assemble t entry exit b = b.buildBetween t entry exit := agrees t entry exit b

end Builder

end JsonAutomata
