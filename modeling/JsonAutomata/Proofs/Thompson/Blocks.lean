import JsonAutomata.Proofs.Lexer.Munch
import JsonAutomata.Proofs.Thompson.Correctness
import JsonAutomata.Proofs.Thompson.Numbering
import JsonAutomata.Proofs.Thompson.States

/-!
# Blocks — the fragments of several patterns side by side

The fragments of several patterns lie side by side, each in a block of numbers of its own and in the
order of the list.  A path through their common automaton stays in the block that it enters
(`path_merge_iff`), so the smallest final state that a text reaches is that of the first pattern
with a final state for the text.  The common automaton reports what this pattern would report by
itself, wherever in the pattern the labels are (`reports_merged_iff`).
-/

open Computability

namespace JsonAutomata

/-! ## 1. Builders -/

namespace Builder

variable {w : List Char} {label : Label}

/-- Which states a builder has handed out before makes no difference to what is reported. -/
theorem reports_build_iff (t : Term) (b : Builder) :
    Lexer.Reports (b.build t).1 w label ↔ Lexer.Reports (Builder.new.build t).1 w label := by
  rw [Thompson.build_eq_shift]
  exact Automaton.bestLabel_reached_shift

/-- A labelled pattern reports its own label for each text that it matches. -/
theorem reports_build_of_label? {t : Term} {own : Label} (hown : t.label? = some own)
    (hw : w ∈ t.language) : Lexer.Reports (Builder.new.build t).1 w label ↔ label = own := by
  -- The exit has the smallest number but for the entry, which is not final.
  have hexit : Lexer.Reports (Builder.new.build t).1 w own := by
    refine Automaton.bestLabel_eq_some_iff.2 ⟨1, (mem_reached_build t .new w).2 hw,
      Thompson.label?_exit hown, fun p _ hp => ?_⟩
    by_contra hsome
    obtain ⟨l, hl⟩ := Option.ne_none_iff_exists'.1 hsome
    rcases Thompson.final_between hl with rfl | ⟨h2, _⟩
    · exact Nat.lt_irrefl 1 hp
    · exact absurd (Nat.lt_of_le_of_lt h2 hp) (by decide)
  unfold Lexer.Reports at hexit ⊢
  rw [hexit, Option.some.injEq, eq_comm]

end Builder

namespace Thompson

/-! ## 2. Blocks -/

def placed : Nat → List Term → List (Term × Nat)
  | _, [] => []
  | n, t :: ts => (t, n) :: placed (n + 2 + interior t) ts

def blockFragment (x : Term × Nat) : Automaton := fragment x.1 (x.2 + 2) x.2 (x.2 + 1)

def InBlock (x : Term × Nat) (q : Nat) : Prop := x.2 ≤ q ∧ q < x.2 + 2 + interior x.1

variable {n q : Nat} {ts : List Term} {x y : Term × Nat} {w : List Char}

theorem buildAll_fst (ts : List Term) (b : Builder) :
    (b.buildAll ts).1 = (placed b.allocated ts).map blockFragment := by
  induction ts generalizing b with
  | nil => rfl
  | cons t ts ih =>
    have htail := ih (b.build t).2
    exact congrArg (blockFragment (t, b.allocated) :: ·) htail

theorem le_of_mem_placed (h : x ∈ placed n ts) : n ≤ x.2 := by
  induction ts generalizing n with
  | nil => exact absurd h List.not_mem_nil
  | cons t ts ih =>
    rcases List.mem_cons.1 h with rfl | h
    · exact Nat.le_refl n
    · have hle := ih h
      omega

theorem mem_of_mem_placed (h : x ∈ placed n ts) : x.1 ∈ ts := by
  induction ts generalizing n with
  | nil => exact absurd h List.not_mem_nil
  | cons t ts ih =>
    rcases List.mem_cons.1 h with rfl | h
    · exact List.mem_cons_self
    · exact List.mem_cons_of_mem t (ih h)

theorem exists_mem_placed {t : Term} (h : t ∈ ts) (n : Nat) : ∃ m, (t, m) ∈ placed n ts := by
  induction ts generalizing n with
  | nil => exact absurd h List.not_mem_nil
  | cons u ts ih =>
    rcases List.mem_cons.1 h with rfl | h
    · exact ⟨n, List.mem_cons_self⟩
    · obtain ⟨m, hm⟩ := ih h (n + 2 + interior u)
      exact ⟨m, List.mem_cons_of_mem _ hm⟩

/-- A state lies in one block only. -/
theorem eq_of_inBlock (hx : x ∈ placed n ts) (hy : y ∈ placed n ts) (hqx : InBlock x q)
    (hqy : InBlock y q) : x = y := by
  obtain ⟨hx1, hx2⟩ := hqx
  obtain ⟨hy1, hy2⟩ := hqy
  -- Later blocks begin behind the first one.
  induction ts generalizing n with
  | nil => exact absurd hx List.not_mem_nil
  | cons t ts ih =>
    rcases List.mem_cons.1 hx with rfl | hx <;> rcases List.mem_cons.1 hy with rfl | hy
    · rfl
    · have hle := le_of_mem_placed hy
      dsimp only at hx2
      omega
    · have hle := le_of_mem_placed hx
      dsimp only at hy2
      omega
    · exact ih hx hy

theorem inBlock_first (x : Term × Nat) : InBlock x x.2 := ⟨Nat.le_refl _, by omega⟩

theorem mem_states_blockFragment : q ∈ (blockFragment x).states ↔ InBlock x q := by
  rw [blockFragment, mem_states_fragment, Inside, InBlock]
  omega

theorem pairwise_placed (n : Nat) (ts : List Term) :
    ((placed n ts).map blockFragment).Pairwise Automaton.DisjointStates := by
  induction ts generalizing n with
  | nil => exact .nil
  | cons t ts ih =>
    refine List.pairwise_cons.2 ⟨fun B hB q hq hqB => ?_, ih _⟩
    rcases List.mem_map.1 hB with ⟨y, hy, rfl⟩
    have hle := le_of_mem_placed hy
    have ⟨_, hbefore⟩ := mem_states_blockFragment.1 hq
    have ⟨hbehind, _⟩ := mem_states_blockFragment.1 hqB
    dsimp only at hbefore
    omega

/-- Blocks behind the common entry share no state with it or with each other. -/
theorem apart_placed {entry : Nat} (hentry : entry < n) :
    Automaton.Apart entry ((placed n ts).map blockFragment) := by
  refine ⟨fun A hA => ?_, fun A hA hmem => ?_, pairwise_placed n ts⟩
  · rcases List.mem_map.1 hA with ⟨x, _, rfl⟩
    exact wellFormed_fragment _ _ _ _
  · rcases List.mem_map.1 hA with ⟨x, hx, rfl⟩
    have hle := le_of_mem_placed hx
    have ⟨hfirst, _⟩ := mem_states_blockFragment.1 hmem
    omega

/-! ## 3. Paths through the common automaton -/

section Merge

variable {entry : Nat}

def merged (entry n : Nat) (ts : List Term) : Automaton :=
  Automaton.merge entry ((placed n ts).map blockFragment)

@[simp]
theorem entry_merged : (merged entry n ts).entry = entry := Automaton.entry_merge _ _

/-- A path from the common entry stays there or goes through one block. -/
theorem path_merge_iff (hentry : entry < n) :
    (merged entry n ts).Path entry w q ↔
      (w = [] ∧ q = entry) ∨ ∃ x ∈ placed n ts, (blockFragment x).Path x.2 w q := by
  have hfirst : ∀ x : Term × Nat, (blockFragment x).entry = x.2 := fun x => entry_fragment _ _ _ _
  rw [merged, (apart_placed hentry).path_merge_iff]
  simp only [List.mem_map, exists_exists_and_eq_and, hfirst]

/-- Some state is reached by exactly the texts that can be read into some pattern. -/
theorem live_merged_iff (hentry : entry < n) (hne : w ≠ []) :
    Lexer.Live (merged entry n ts) w ↔ ∃ t ∈ ts, w ∈ t.consumable := by
  have hblock : ∀ x : Term × Nat, (∃ q, (blockFragment x).Path x.2 w q) ↔ w ∈ x.1.consumable :=
    fun x => exists_path_iff (by omega) (by omega) (by omega)
  unfold Lexer.Live
  rw [entry_merged]
  constructor
  · rintro ⟨q, path⟩
    rcases (path_merge_iff hentry).1 path with ⟨hw, _⟩ | ⟨x, hx, path⟩
    · exact absurd hw hne
    · exact ⟨x.1, mem_of_mem_placed hx, (hblock x).1 ⟨q, path⟩⟩
  · rintro ⟨t, ht, hw⟩
    obtain ⟨m, hm⟩ := exists_mem_placed ht n
    obtain ⟨q, path⟩ := (hblock (t, m)).2 hw
    exact ⟨q, (path_merge_iff hentry).2 (.inr ⟨_, hm, path⟩)⟩

/-! ## 4. Final states of the common automaton -/

theorem inBlock_of_final {label : Label} (h : (blockFragment x).label? q = some label) :
    InBlock x q := by
  unfold InBlock
  rcases final_between h with rfl | ⟨h1, h2⟩ <;> omega

/-- Reading a text leads to the final states to which it leads in the blocks. -/
theorem final_reached_merged_iff (hentry : entry < n) {label : Label} :
    (q ∈ (merged entry n ts).reached w ∧ (merged entry n ts).label? q = some label) ↔
      ∃ x ∈ placed n ts, q ∈ (blockFragment x).reached w ∧
        (blockFragment x).label? q = some label := by
  rw [merged, (apart_placed hentry).final_reached_merge_iff]
  simp only [List.mem_map, exists_exists_and_eq_and]

/-! ## 5. What the common automaton reports -/

theorem lt_of_inBlock {p : Nat} (hx : x ∈ placed n ts) (hy : y ∈ placed n ts) (hlt : y.2 < x.2)
    (hp : InBlock y p) (hq : InBlock x q) : p < q := by
  -- Otherwise the first state of the later block would lie in the earlier one as well.
  by_contra hle
  have hfirst : InBlock y x.2 := by
    unfold InBlock at hp hq ⊢
    omega
  obtain rfl := eq_of_inBlock hx hy (inBlock_first x) hfirst
  exact Nat.lt_irrefl _ hlt

/-- The label that is reported for a text is that of the first block that reports one. -/
theorem reports_merged_iff_block (hentry : entry < n) {label : Label} :
    Lexer.Reports (merged entry n ts) w label ↔
      ∃ x ∈ placed n ts, Lexer.Reports (blockFragment x) w label ∧
        ∀ y ∈ placed n ts, y.2 < x.2 → (blockFragment y).accepts w = false := by
  simp only [Lexer.Reports, Automaton.bestLabel_eq_some_iff]
  constructor
  · rintro ⟨q, hq, hlabel, hsmaller⟩
    obtain ⟨x, hx, hxq, hxl⟩ := (final_reached_merged_iff hentry).1 ⟨hq, hlabel⟩
    -- A smaller final state in any block would be one of the common automaton.
    have hnone : ∀ y ∈ placed n ts, ∀ p ∈ (blockFragment y).reached w, p < q →
        (blockFragment y).label? p = none := by
      intro y hy p hp hlt
      by_contra hsome
      obtain ⟨l, hl⟩ := Option.ne_none_iff_exists'.1 hsome
      obtain ⟨hreached, hfinal⟩ := (final_reached_merged_iff hentry).2 ⟨y, hy, hp, hl⟩
      rw [hsmaller p hreached hlt] at hfinal
      cases hfinal
    refine ⟨x, hx, ⟨q, hxq, hxl, hnone x hx⟩, fun y hy hlt => ?_⟩
    by_contra haccepts
    obtain ⟨p, hp, l, hl⟩ :=
      Automaton.accepts_iff_exists.1 (Bool.not_eq_false _ ▸ haccepts)
    have hpq := lt_of_inBlock hx hy hlt (inBlock_of_final hl) (inBlock_of_final hxl)
    rw [hnone y hy p hp hpq] at hl
    cases hl
  · rintro ⟨x, hx, ⟨q, hxq, hxl, hsmaller⟩, hbefore⟩
    obtain ⟨hq, hlabel⟩ := (final_reached_merged_iff hentry).2 ⟨x, hx, hxq, hxl⟩
    refine ⟨q, hq, hlabel, fun p hp hpq => ?_⟩
    by_contra hsome
    obtain ⟨l, hl⟩ := Option.ne_none_iff_exists'.1 hsome
    obtain ⟨y, hy, hyp, hyl⟩ := (final_reached_merged_iff hentry).1 ⟨hp, hl⟩
    rcases Nat.lt_trichotomy y.2 x.2 with hlt | heq | hgt
    · have haccepts := Automaton.accepts_iff_exists.2 ⟨p, hyp, l, hyl⟩
      rw [hbefore y hy hlt] at haccepts
      cases haccepts
    · obtain rfl := eq_of_inBlock hx hy (inBlock_first x) (heq ▸ inBlock_first y)
      rw [hsmaller p hyp hpq] at hyl
      cases hyl
    · have hqp := lt_of_inBlock hy hx hgt (inBlock_of_final hxl) (inBlock_of_final hyl)
      exact absurd hpq (Nat.lt_asymm hqp)

/-- A pattern is the first of a list that has one property if those before it have the other. -/
theorem exists_first_placed_iff {P Q : Term → Prop} :
    (∃ x ∈ placed n ts, P x.1 ∧ ∀ y ∈ placed n ts, y.2 < x.2 → Q y.1) ↔
      ∃ before t after, ts = before ++ t :: after ∧ P t ∧ ∀ u ∈ before, Q u := by
  induction ts generalizing n with
  | nil => simp [placed]
  | cons t ts ih =>
    have hlater : ∀ y ∈ placed (n + 2 + interior t) ts, n < y.2 := by
      intro y hy
      have hle := le_of_mem_placed hy
      omega
    constructor
    · rintro ⟨x, hx, hP, hQ⟩
      rcases List.mem_cons.1 hx with rfl | hx
      · exact ⟨[], t, ts, rfl, hP, fun u hu => absurd hu List.not_mem_nil⟩
      · obtain ⟨before, s, after, heq, hs, hbefore⟩ := ih.1
          ⟨x, hx, hP, fun y hy => hQ y (List.mem_cons_of_mem _ hy)⟩
        refine ⟨t :: before, s, after, congrArg (t :: ·) heq, hs, fun u hu => ?_⟩
        rcases List.mem_cons.1 hu with rfl | hu
        · exact hQ (u, n) List.mem_cons_self (hlater x hx)
        · exact hbefore u hu
    · rintro ⟨before, s, after, heq, hs, hbefore⟩
      cases before with
      | nil =>
        cases heq
        refine ⟨(t, n), List.mem_cons_self, hs, fun y hy hlt => ?_⟩
        rcases List.mem_cons.1 hy with rfl | hy
        · exact absurd hlt (Nat.lt_irrefl n)
        · exact absurd hlt (Nat.lt_asymm (hlater y hy))
      | cons u before =>
        cases heq
        obtain ⟨x, hx, hP, hQ⟩ := ih.2
          ⟨before, s, after, rfl, hs, fun v hv => hbefore v (List.mem_cons_of_mem t hv)⟩
        refine ⟨x, List.mem_cons_of_mem _ hx, hP, fun y hy hlt => ?_⟩
        rcases List.mem_cons.1 hy with rfl | hy
        · exact hbefore t List.mem_cons_self
        · exact hQ y hy hlt

/-- For a text the common automaton reports what the first pattern does by itself that has a final
state for the text. -/
theorem reports_merged_iff (hentry : entry < n) {label : Label} :
    Lexer.Reports (merged entry n ts) w label ↔
      ∃ before t after, ts = before ++ t :: after ∧
        Lexer.Reports (Builder.new.build t).1 w label ∧
        ∀ u ∈ before, (Builder.new.build u).1.accepts w = false := by
  have hreports : ∀ (x : Term × Nat) (l : Label), Lexer.Reports (blockFragment x) w l ↔
      Lexer.Reports (Builder.new.build x.1).1 w l := fun x l => Builder.reports_build_iff x.1 ⟨x.2⟩
  have haccepts : ∀ x : Term × Nat, (blockFragment x).accepts w = false ↔
      (Builder.new.build x.1).1.accepts w = false := by
    intro x
    rw [← Bool.not_eq_true, ← Bool.not_eq_true, Lexer.accepts_iff_reports,
      Lexer.accepts_iff_reports]
    simp only [hreports]
  rw [reports_merged_iff_block hentry, ← exists_first_placed_iff (n := n)]
  simp only [hreports, haccepts]

end Merge

end Thompson

end JsonAutomata
