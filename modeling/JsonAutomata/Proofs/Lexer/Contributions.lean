import JsonAutomata.Proofs.Lexer.Groups
import JsonAutomata.Proofs.Thompson.Labels

/-!
# Contributions — which patterns give labels to tokens

The patterns of a lexer have their states in blocks of the common automaton, which take over what the
patterns report by themselves.  So a pattern has final states if some part of it is labelled, and the
final state that decides the label of a token belongs to such a pattern
(`contributes_iff_grouped_part`).
-/

namespace JsonAutomata

namespace Lexer

open Thompson

variable {patterns : List Term} {x : Term × Nat} {q : Nat} {label : Label}

/-- The patterns with the first numbers of their states in the common automaton.  The number before
those of several patterns is that of the common entry. -/
def blocks (patterns : List Term) : List (Term × Nat) :=
  placed (if patterns.length = 1 then 0 else 1) patterns

theorem map_fst_placed (n : Nat) (ts : List Term) : (placed n ts).map Prod.fst = ts := by
  induction ts generalizing n with
  | nil => rfl
  | cons t ts ih => exact congrArg (t :: ·) (ih _)

/-- There is a block for each pattern. -/
theorem map_fst_blocks (patterns : List Term) : (blocks patterns).map Prod.fst = patterns :=
  map_fst_placed _ patterns

/-- The automaton of the patterns is that of the only block, or that of all blocks under a common
entry. -/
theorem compile_cases (patterns : List Term) :
    (∃ x, blocks patterns = [x] ∧ compile patterns = blockFragment x) ∨
      Automaton.Apart 0 ((blocks patterns).map blockFragment) ∧
        compile patterns = Automaton.merge 0 ((blocks patterns).map blockFragment) := by
  match patterns with
  | [] => exact .inr ⟨apart_placed Nat.zero_lt_one, rfl⟩
  | [p] => exact .inl ⟨(p, 0), rfl, rfl⟩
  | p :: q :: ps =>
    refine .inr ⟨apart_placed Nat.zero_lt_one, ?_⟩
    exact congrArg (Automaton.merge 0) (buildAll_fst (p :: q :: ps) ⟨1⟩)

/-- A state of a block reports what it reports when its pattern is compiled by itself. -/
theorem label?_compile (hx : x ∈ blocks patterns) (hq : InBlock x q) :
    (compile patterns).label? q = (blockFragment x).label? q := by
  rcases compile_cases patterns with ⟨y, hblocks, hcompile⟩ | ⟨hapart, hcompile⟩
  · rw [hblocks, List.mem_singleton] at hx
    rw [hcompile, hx]
  · rw [hcompile]
    exact hapart.label?_merge (List.mem_map_of_mem hx) (mem_states_blockFragment.2 hq)

/-- A final state lies in a block. -/
theorem exists_block_of_label? (h : (compile patterns).label? q = some label) :
    ∃ x ∈ blocks patterns, InBlock x q := by
  rcases compile_cases patterns with ⟨x, hblocks, hcompile⟩ | ⟨hapart, hcompile⟩
  · rw [hcompile] at h
    rw [hblocks]
    exact ⟨x, List.mem_singleton_self x, inBlock_of_final h⟩
  · rw [hcompile, hapart.label?_merge_eq_some_iff] at h
    rcases h with ⟨A, hA, hlabel⟩
    rcases List.mem_map.1 hA with ⟨x, hx, rfl⟩
    exact ⟨x, hx, inBlock_of_final hlabel⟩

/-- A pattern has final states in the automaton of the patterns if and only if some part of it is
labelled. -/
theorem exists_final_iff (hx : x ∈ blocks patterns) :
    (∃ q, InBlock x q ∧ (compile patterns).isFinal q = true) ↔
      ∃ s ∈ x.1.parts, s.isGrouped = true := by
  constructor
  · rintro ⟨q, hq, hfinal⟩
    rw [Automaton.isFinal, label?_compile hx hq] at hfinal
    rcases Option.isSome_iff_exists.1 hfinal with ⟨label, hlabel⟩
    rcases exists_part_of_label? hlabel with ⟨s, hs, hslabel⟩
    exact ⟨s, hs, Option.isSome_of_eq_some hslabel⟩
  · rintro ⟨s, hs, hgrouped⟩
    have hblock : ∃ q, (blockFragment x).isFinal q = true := exists_final_of_part hs hgrouped
    rcases hblock with ⟨q, hfinal⟩
    rcases Option.isSome_iff_exists.1 hfinal with ⟨label, hlabel⟩
    have hq : InBlock x q := inBlock_of_final hlabel
    refine ⟨q, hq, ?_⟩
    rw [Automaton.isFinal, label?_compile hx hq]
    exact hfinal

/-- A label that the automaton of the patterns reports is decided by the final state of highest
priority, which lies in the block of a pattern with a part under the label. -/
theorem Reports.exists_block {w : List Char} (h : Reports (compile patterns) w label) :
    ∃ x ∈ blocks patterns, (∃ s ∈ x.1.parts, s.label? = some label) ∧
      ∃ q, InBlock x q ∧ (compile patterns).label? q = some label ∧
        (compile patterns).bestFinal ((compile patterns).reached w) = some q := by
  rcases Automaton.bestLabel_eq_some_iff.1 h with ⟨q, hq, hlabel, hleast⟩
  rcases exists_block_of_label? hlabel with ⟨x, hx, hblock⟩
  have hpart := hlabel
  rw [label?_compile hx hblock] at hpart
  refine ⟨x, hx, exists_part_of_label? hpart, q, hblock, hlabel, ?_⟩
  refine Automaton.bestFinal_eq_some_iff.2 ⟨hq, Option.isSome_of_eq_some hlabel, ?_⟩
  intro p hp hfinal
  by_contra hlt
  have hnone := hleast p hp (Nat.lt_of_not_le hlt)
  rw [Automaton.isFinal, hnone] at hfinal
  cases hfinal

/-- Each pattern has its block of states, with final ones among them if and only if the pattern is
labelled at some depth, be it below a top that is not.  Whatever a lexer was put through before, the
label of a token is that of a final state of such a pattern, and of no other: it is decided by the
final state of highest priority that the content reaches, and this belongs to one pattern, which has
a part under the label. -/
theorem contributes_iff_grouped_part (patterns : List Term) :
    (blocks patterns).map Prod.fst = patterns ∧
    (∀ x ∈ blocks patterns, (∃ q, InBlock x q ∧ (compile patterns).isFinal q = true) ↔
      ∃ s ∈ x.1.parts, s.isGrouped = true) ∧
    ∀ (actions : List Action) (lx : Lexer) (t : Token),
      lx ∈ actions.foldl act [ofPatterns patterns] →
      (lx.Gives t ∨ ∃ input, t ∈ (lx.scan input).tokens) →
      ∃ x ∈ blocks patterns, (∃ s ∈ x.1.parts, s.label? = some t.label) ∧
        ∃ q, InBlock x q ∧ (∀ y ∈ blocks patterns, InBlock y q → y = x) ∧
          (compile patterns).label? q = some t.label ∧
          (compile patterns).bestFinal ((compile patterns).reached t.content.toList) = some q := by
  refine ⟨map_fst_blocks patterns, fun x hx => exists_final_iff hx, fun actions lx t hlx ht => ?_⟩
  rcases Reports.exists_block (reports_of_emitted hlx ht) with ⟨x, hx, hparts, q, hq, hlabel, hbest⟩
  exact ⟨x, hx, hparts, q, hq, fun y hy hqy => eq_of_inBlock hy hx hqy hq, hlabel, hbest⟩

/-- A pattern without labels before a number whose digits are labelled: the token of `7` is that of
a digit, from the block of the number. -/
theorem contributes_iff_grouped_part_digits :
    let letters : Term := .star .letters
    let number : Term := .plus (.labeled "digit" .digits)
    let lx := ofPatterns [letters, number]
    let t : Token := ⟨"7", "digit", ⟨0, 1⟩⟩
    lx ∈ [].foldl act [ofPatterns [letters, number]] ∧ t ∈ (lx.scan ['7']).tokens ∧
      ∃ x ∈ blocks [letters, number], (∃ s ∈ x.1.parts, s.label? = some t.label) ∧
        ∃ q, InBlock x q ∧ (compile [letters, number]).label? q = some t.label := by
  intro letters number lx t
  have hlx : lx ∈ [].foldl act [ofPatterns [letters, number]] := List.mem_singleton_self lx
  have ht : t ∈ (lx.scan ['7']).tokens := by decide +kernel
  rcases (contributes_iff_grouped_part [letters, number]).2.2 [] lx t hlx (.inr ⟨_, ht⟩) with
    ⟨x, hx, hparts, q, hq, -, hlabel, -⟩
  exact ⟨hlx, ht, x, hx, hparts, q, hq, hlabel⟩

/-- A repetition that is not labelled itself has a final state, and gives tokens, if what it repeats
is labelled. -/
theorem contributes_ungrouped :
    let p : Term := .star (.labeled "x" (.one (.single 'a')))
    p.isGrouped = false ∧ (∃ x ∈ blocks [p], x.1 = p ∧
      ∃ q, InBlock x q ∧ (compile [p]).isFinal q = true) ∧
      ((ofPatterns [p]).scan ['a']).tokens = [⟨"a", "x", ⟨0, 1⟩⟩] := by
  intro p
  exact ⟨rfl, ⟨(p, 0), List.mem_singleton_self _, rfl, 3, ⟨by decide, by decide⟩, by decide⟩,
    by decide +kernel⟩

end Lexer

end JsonAutomata
