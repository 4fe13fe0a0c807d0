import JsonAutomata.Proofs.Automaton.Merging
import JsonAutomata.Proofs.Pattern.Parts
import JsonAutomata.Proofs.Thompson.Entering
import JsonAutomata.Proofs.Thompson.Numbering

/-!
# Labels — what the final states of a compiled term stand for

A final state of a fragment is the exit of a labelled part, which the text completes when it reaches
that state.  The one other way to the state is to leave a repetition without any parts: the exit of
the repetition is that of its last copy, and final if the copies end under a label
(`reported_of_path`).
-/

open Computability

namespace JsonAutomata

namespace Thompson

variable {t : Term} {next entry exit q : Nat} {w : List Char} {label : Label}

/-! ## 1. Labelled parts -/

/-- A final state reports the label of some part. -/
theorem exists_part_of_label? (h : (fragment t next entry exit).label? q = some label) :
    ∃ s ∈ t.parts, s.label? = some label := by
  induction t generalizing next entry exit with
  | epsilon => cases h
  | one cls => cases h
  | seq l r ihl ihr =>
    rw [label?_seq, Option.or_eq_some_iff] at h
    rcases h with h | ⟨-, h⟩
    · rcases ihr h with ⟨s, hs, hlabel⟩
      exact ⟨s, List.mem_cons_of_mem _ (List.mem_append_right _ hs), hlabel⟩
    · rcases ihl h with ⟨s, hs, hlabel⟩
      exact ⟨s, List.mem_cons_of_mem _ (List.mem_append_left _ hs), hlabel⟩
  | alt l r ihl ihr =>
    rw [label?_alt, Option.or_eq_some_iff] at h
    rcases h with h | ⟨-, h⟩
    · rcases ihr h with ⟨s, hs, hlabel⟩
      exact ⟨s, List.mem_cons_of_mem _ (List.mem_append_right _ hs), hlabel⟩
    · rcases ihl h with ⟨s, hs, hlabel⟩
      exact ⟨s, List.mem_cons_of_mem _ (List.mem_append_left _ hs), hlabel⟩
  | star t ih =>
    rw [label?_star] at h
    rcases ih h with ⟨s, hs, hlabel⟩
    exact ⟨s, List.mem_cons_of_mem _ hs, hlabel⟩
  | times t min max ordered ih =>
    rcases exists_copy_of_label? h with ⟨i, -, hcopy⟩
    rcases ih hcopy with ⟨s, hs, hlabel⟩
    exact ⟨s, List.mem_cons_of_mem _ hs, hlabel⟩
  | labeled l t ih =>
    rw [label?_labeled] at h
    split at h
    · exact ⟨_, List.mem_cons_self, h⟩
    · rcases ih h with ⟨s, hs, hlabel⟩
      exact ⟨s, List.mem_cons_of_mem _ hs, hlabel⟩

/-- A labelled part gives the whole a final state, even if its label is not the one reported
there. -/
theorem exists_final_of_part {s : Term} (hs : s ∈ t.parts) (hgrouped : s.isGrouped = true) :
    ∃ q, (fragment t next entry exit).isFinal q = true := by
  unfold Automaton.isFinal
  induction t generalizing next entry exit with
  | epsilon =>
    cases List.mem_singleton.1 hs
    cases hgrouped
  | one cls =>
    cases List.mem_singleton.1 hs
    cases hgrouped
  | seq l r ihl ihr =>
    simp only [label?_seq, Option.isSome_or, Bool.or_eq_true]
    rcases List.mem_cons.1 hs with rfl | hs
    · cases hgrouped
    · rcases List.mem_append.1 hs with hs | hs
      · exact (ihl hs).imp fun q hq => .inr hq
      · exact (ihr hs).imp fun q hq => .inl hq
  | alt l r ihl ihr =>
    simp only [label?_alt, Option.isSome_or, Bool.or_eq_true]
    rcases List.mem_cons.1 hs with rfl | hs
    · cases hgrouped
    · rcases List.mem_append.1 hs with hs | hs
      · exact (ihl hs).imp fun q hq => .inr hq
      · exact (ihr hs).imp fun q hq => .inl hq
  | star t ih =>
    simp only [label?_star]
    rcases List.mem_cons.1 hs with rfl | hs
    · cases hgrouped
    · exact ih hs
  | times t min max ordered ih =>
    simp only [label?_times, List.findSome?_isSome_iff, List.mem_reverse, List.mem_range]
    rcases List.mem_cons.1 hs with rfl | hs
    · cases hgrouped
    · -- There is at least one copy.
      exact (ih hs).imp fun q hq => ⟨0, Nat.zero_lt_of_lt ordered, hq⟩
  | labeled l t ih =>
    refine ⟨exit, ?_⟩
    rw [label?_labeled, if_pos rfl]
    rfl

/-! ## 2. Reached labels -/

theorem exitLabel?_of_label?_exit (hexit : exit < next)
    (h : (fragment t next entry exit).label? exit = some label) : t.exitLabel? = some label := by
  -- No final state inside or at the end of another part has the number of the exit.
  induction t generalizing next entry exit with
  | epsilon => cases h
  | one cls => cases h
  | seq l r ihl ihr =>
    rw [label?_seq, Option.or_eq_some_iff] at h
    rcases h with h | ⟨-, h⟩
    · exact ihr (by omega) h
    · have hleft := final_between h
      unfold Inside at hleft
      omega
  | alt l r ihl ihr =>
    rw [label?_alt, Option.or_eq_some_iff] at h
    rcases h with h | ⟨-, h⟩
    · have hright := final_between h
      unfold Inside at hright
      omega
    · have hleft := final_between h
      unfold Inside at hleft
      omega
  | star t ih =>
    rw [label?_star] at h
    have hbody := final_between h
    unfold Inside at hbody
    omega
  | times t min max ordered ih =>
    rcases exists_copy_of_label? h with ⟨i, -, hcopy⟩
    have hfirst := le_innerFirst next (interior t) max i
    -- Only the last copy ends there.
    rcases final_between hcopy with heq | hinside
    · rw [copy, ← heq] at hcopy
      exact ih (by omega) hcopy
    · have hge := hinside.1
      omega
  | labeled l t ih =>
    rw [label?_labeled, if_pos rfl] at h
    exact h

/-- What a text reports at a final state that it reaches. -/
theorem reported_of_path (hentry : entry < next) (hexit : exit < next) (hne : entry ≠ exit)
    (path : (fragment t next entry exit).Path entry w q)
    (hlabel : (fragment t next entry exit).label? q = some label) : t.Reported w label := by
  -- The part with the final state is entered after some text, and what is reported for the rest
  -- within the part is reported for the whole text.
  induction t generalizing next entry exit w q with
  | epsilon => cases hlabel
  | one cls => cases hlabel
  | seq l r ihl ihr =>
    rw [label?_seq, Option.or_eq_some_iff] at hlabel
    rcases hlabel with hlabel | ⟨-, hlabel⟩
    · rcases seq_path_right hentry hexit hne path (final_between hlabel) with
        ⟨u, v, rfl, hu, inner⟩
      have hright := ihr (by omega) (by omega) (by omega) inner hlabel
      exact hright.lift fun _ _ h => .second hu h
    · have inner := seq_path_left hentry hexit hne path (final_between hlabel)
      have hleft := ihl (by omega) (by omega) (by omega) inner hlabel
      exact hleft.lift (v := []) fun _ _ h => .first h
  | alt l r ihl ihr =>
    rw [label?_alt, Option.or_eq_some_iff] at hlabel
    rcases hlabel with hlabel | ⟨-, hlabel⟩
    · have inner := alt_path_right hentry hexit hne path (final_between hlabel)
      have hright := ihr (by omega) (by omega) (by omega) inner hlabel
      exact hright.lift (v := []) fun _ _ h => .right h
    · have inner := alt_path_left hentry hexit hne path (final_between hlabel)
      have hleft := ihl (by omega) (by omega) (by omega) inner hlabel
      exact hleft.lift (v := []) fun _ _ h => .left h
  | star t ih =>
    rw [label?_star] at hlabel
    rcases star_path_body hentry hexit hne path (final_between hlabel) with
      ⟨u, v, rfl, hu, inner⟩
    have hbody := ih (by omega) (by omega) (by omega) inner hlabel
    exact hbody.lift fun _ _ h => .round hu h
  | times t min max ordered ih =>
    by_cases hq : q = exit
    · -- The exit is reached from the last copy, or from a stop before it.
      subst hq
      have hw := (path_exit_iff hentry hexit hne).1 path
      exact Term.reported_of_exitLabel? (exitLabel?_of_label?_exit hexit hlabel) hw
    · rcases exists_copy_of_label? hlabel with ⟨i, hi, hcopy⟩
      rcases times_path_copy hentry hexit hne hi path ⟨final_between hcopy, hq⟩ with
        ⟨u, v, rfl, hu, inner⟩
      have ⟨h1, h2, h3⟩ := boundary_lt_innerFirst (interior t) hentry hexit hne hi
      exact (ih h1 h2 h3 inner hcopy).lift fun _ _ h => .copy hi hu h
  | labeled l t ih =>
    rw [label?_labeled] at hlabel
    split at hlabel
    · rename_i heq
      subst heq
      have hw := (path_exit_iff hentry hexit hne).1 path
      exact .inl ⟨[], w, _, rfl, .here _, hlabel, hw⟩
    · have hsub : (fragment (.labeled l t) next entry exit).transitions
          ⊆ (fragment t next entry exit).transitions := List.Subset.refl _
      have hinner := ih hentry hexit hne (Automaton.path_mono hsub path) hlabel
      exact hinner.lift (v := []) fun _ _ h => .labeled l h

end Thompson

/-! ## 3. Compiled terms -/

namespace Builder

/-- A label that a text reaches stands for a part under it that ends the text: what is read before
leads to the part, and the part matches the rest.  The only other case is the label at the end of
the copies of a repetition, when the text leads to the repetition and this may have no copies. -/
theorem part_of_reached (t : Term) (b : Builder) {w : List Char} {q : State} {label : Label}
    (hq : q ∈ (b.build t).1.reached w) (hlabel : (b.build t).1.label? q = some label) :
    (∃ s ∈ t.parts, s.label? = some label ∧
      ∃ u v, u ++ v = w ∧ t.Leads u s ∧ v ∈ s.language) ∨
    ∃ inner max, ∃ ordered : 0 < max, .times inner 0 max ordered ∈ t.parts ∧
      inner.exitLabel? = some label ∧ t.Leads w (.times inner 0 max ordered) := by
  have path := Automaton.mem_reached.1 hq
  rw [entry_build] at path
  have hentry : b.allocated < b.allocated + 2 := by omega
  have hexit : b.allocated + 1 < b.allocated + 2 := by omega
  have hne : b.allocated ≠ b.allocated + 1 := by omega
  rcases Thompson.reported_of_path hentry hexit hne path hlabel with
    ⟨u, v, s, rfl, hs, hslabel, hv⟩ | ⟨inner, max, ordered, hinner, hilabel⟩
  · exact .inl ⟨s, hs.mem_parts, hslabel, u, v, rfl, hs, hv⟩
  · exact .inr ⟨inner, max, ordered, hinner.mem_parts, hilabel, hinner⟩

/-- In `(ab)*` with `b` under a label, `abab` reaches the label by its second `b`. -/
theorem part_of_reached_round :
    let t : Term := .star (.seq (.one (.single 'a')) (.labeled "b" (.one (.single 'b'))))
    3 ∈ (new.build t).1.reached ['a', 'b', 'a', 'b'] ∧ (new.build t).1.label? 3 = some "b" ∧
      ∃ s ∈ t.parts, s.label? = some "b" ∧
        ∃ u v, u ++ v = ['a', 'b', 'a', 'b'] ∧ t.Leads u s ∧ v ∈ s.language := by
  intro t
  have hreached : 3 ∈ (new.build t).1.reached ['a', 'b', 'a', 'b'] :=
    SortedSet.mem_toList.1 (by decide +kernel)
  have hlabel : (new.build t).1.label? 3 = some "b" := by decide +kernel
  refine ⟨hreached, hlabel, ?_⟩
  rcases part_of_reached t new hreached hlabel with h | ⟨inner, max, ordered, hparts, -⟩
  · exact h
  · simp [t, Term.parts] at hparts

/-- The empty text reaches the label of the letter in `a{0,1}`, although it does not end with the
letter. -/
theorem part_of_reached_skipped :
    let t : Term := .times (.labeled "x" (.one (.single 'a'))) 0 1 (by decide)
    1 ∈ (new.build t).1.reached [] ∧ (new.build t).1.label? 1 = some "x" ∧
      ∀ s ∈ t.parts, s.label? = some "x" → ∀ v, v <:+ [] → ¬ v ∈ s.language := by
  intro t
  have hreached : 1 ∈ (new.build t).1.reached [] := SortedSet.mem_toList.1 (by decide)
  refine ⟨hreached, by decide, fun s hs hlabel v hv => ?_⟩
  obtain rfl := List.suffix_nil.1 hv
  simp only [t, Term.parts, List.mem_cons, List.not_mem_nil, or_false] at hs
  rcases hs with rfl | rfl | rfl
  · cases hlabel
  · rintro ⟨c, -, hc⟩
    cases hc
  · cases hlabel

end Builder

end JsonAutomata
