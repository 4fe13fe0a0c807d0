import JsonAutomata.Proofs.Automaton.Covering
import JsonAutomata.Proofs.Pattern.Prefixes
import JsonAutomata.Proofs.Thompson.Fragment

/-!
# Coverings of fragments

A fragment whose states are apart has a covering that assigns to its exit what the term matches, and
to no state more than what can be read into the term (`exists_covering`).  The covering of a whole
takes over those of its parts, each in the interior of that part, so the induction never looks at a
path.
-/

open Computability

namespace JsonAutomata

namespace Thompson

variable {next entry exit : Nat}

/-! ## 1. Coverings of parts -/

/-- The covering `F` of a fragment that is entered after the texts of `H`: its exit is reached
after these and what the term matches, and its interior after these and what can be read into it. -/
structure FragmentCovering (t : Term) (next entry exit : Nat) (H : Language Char)
    (F : Nat → Language Char) : Prop where
  covers : Covers (fragment t next entry exit).transitions F
  at_entry : F entry = H
  at_exit : F exit = H * t.language
  at_inside : ∀ q, Inside next t q → F q ≤ H * t.consumable

/-- A covering of a part bounds the part inside a whole that agrees with it in the interior. -/
theorem FragmentCovering.covers_of_agree {t : Term} {H : Language Char} {F G : Nat → Language Char}
    (h : FragmentCovering t next entry exit H F) (hentry : G entry ≤ H)
    (hexit : H * t.language ≤ G exit) (hinside : ∀ q, Inside next t q → G q = F q) :
    Covers (fragment t next entry exit).transitions G := by
  refine h.covers.transfer fun s u m he => ?_
  have ⟨hs, hu⟩ := edge_between he
  constructor
  · rcases hs with rfl | hs
    · exact hentry.trans h.at_entry.ge
    · exact (hinside s hs).le
  · rcases hu with rfl | hu
    · exact h.at_exit.le.trans hexit
    · exact (hinside u hu).ge

def pinned (entry exit : Nat) (H K : Language Char) (F : Nat → Language Char) (q : Nat) :
    Language Char :=
  if q = entry then H else if q = exit then K else F q

section Pinned

variable {H K : Language Char} {F : Nat → Language Char}

theorem pinned_entry : pinned entry exit H K F entry = H := if_pos rfl

theorem pinned_exit (hne : entry ≠ exit) : pinned entry exit H K F exit = K :=
  (if_neg (Ne.symm hne)).trans (if_pos rfl)

theorem pinned_of_le (hentry : entry < next) (hexit : exit < next) {q : Nat} (h : next ≤ q) :
    pinned entry exit H K F q = F q := by
  rw [pinned, if_neg (by omega), if_neg (by omega)]

end Pinned

/-- It is enough to assign texts to the interior, if they agree with those at the ends. -/
theorem exists_covering_of_interior {t : Term} {H : Language Char} (F : Nat → Language Char)
    (hentry : entry < next) (hexit : exit < next) (hne : entry ≠ exit)
    (hcovers : ∀ G : Nat → Language Char, G entry = H → G exit = H * t.language →
      (∀ q, next ≤ q → G q = F q) → Covers (fragment t next entry exit).transitions G)
    (hinside : ∀ q, Inside next t q → F q ≤ H * t.consumable) :
    ∃ G, FragmentCovering t next entry exit H G := by
  have hagree : ∀ q, next ≤ q → pinned entry exit H (H * t.language) F q = F q :=
    fun q h => pinned_of_le hentry hexit h
  have hG := hcovers _ pinned_entry (pinned_exit hne) hagree
  refine ⟨_, hG, pinned_entry, pinned_exit hne, fun q hq => ?_⟩
  rw [hagree q hq.1]
  exact hinside q hq

/-- The induction hypothesis for a part: it has a covering wherever its states are apart. -/
def HasCoverings (t : Term) : Prop :=
  ∀ next entry exit : Nat, entry < next → exit < next → entry ≠ exit → ∀ H,
    ∃ F, FragmentCovering t next entry exit H F

theorem hasCoverings_epsilon : HasCoverings .epsilon := by
  intro next entry exit hentry hexit hne H
  refine exists_covering_of_interior (fun _ => 0) hentry hexit hne ?_ fun q _ => zero_le
  intro G hGentry hGexit _
  rw [transitions_epsilon, covers_cons_epsilon, hGentry, hGexit]
  exact ⟨(mul_one H).ge, covers_nil⟩

theorem hasCoverings_one (cls : CharClass) : HasCoverings (.one cls) := by
  intro next entry exit hentry hexit hne H
  refine exists_covering_of_interior (fun _ => 0) hentry hexit hne ?_ fun q _ => zero_le
  intro G hGentry hGexit _ s u m he
  cases List.mem_singleton.1 he
  rw [hGentry, hGexit]
  exact le_rfl

/-! ## 2. Sequences -/

section Sequences

variable {l r : Term} {J : Language Char} {Fl Fr : Nat → Language Char} {q : Nat}

/-- The interior of a sequence: `J` between its parts, and the coverings of these. -/
def seqCovering (next : Nat) (l : Term) (J : Language Char) (Fl Fr : Nat → Language Char)
    (q : Nat) : Language Char :=
  if q < next + 2 then J else if q < next + 2 + interior l then Fl q else Fr q

theorem seqCovering_between (h : q < next + 2) : seqCovering next l J Fl Fr q = J := if_pos h

theorem seqCovering_left (h : Inside (next + 2) l q) : seqCovering next l J Fl Fr q = Fl q := by
  obtain ⟨h1, h2⟩ := h
  rw [seqCovering, if_neg (by omega), if_pos h2]

theorem seqCovering_right (h : next + 2 + interior l ≤ q) :
    seqCovering next l J Fl Fr q = Fr q := by
  rw [seqCovering, if_neg (by omega), if_neg (by omega)]

theorem hasCoverings_seq (ihl : HasCoverings l) (ihr : HasCoverings r) :
    HasCoverings (.seq l r) := by
  intro next entry exit hentry hexit hne H
  obtain ⟨Fl, hl⟩ := ihl (next + 2) entry next (by omega) (by omega) (by omega) H
  obtain ⟨Fr, hr⟩ := ihr (next + 2 + interior l) (next + 1) exit (by omega) (by omega) (by omega)
    (H * l.language)
  refine exists_covering_of_interior (seqCovering next l (H * l.language) Fl Fr) hentry hexit hne
    ?_ fun q hq => ?_
  · intro G hGentry hGexit hG
    have hbetween : ∀ q, next ≤ q → q < next + 2 → G q = H * l.language :=
      fun q h1 h2 => (hG q h1).trans (seqCovering_between h2)
    have hlanguage : H * l.language * r.language = H * (Term.seq l r).language :=
      mul_assoc H l.language r.language
    rw [transitions_seq, covers_append, covers_append, covers_cons_epsilon]
    refine ⟨⟨?_, ?_⟩, ?_, covers_nil⟩
    -- The first part ends, and the second one is entered, after what the first one matches.
    · refine hl.covers_of_agree hGentry.le (hbetween next le_rfl (by omega)).ge fun q hq => ?_
      exact (hG q (by have := hq.1; omega)).trans (seqCovering_left hq)
    · refine hr.covers_of_agree (hbetween (next + 1) (by omega) (by omega)).le
        (hlanguage.trans hGexit.symm).le fun q hq => ?_
      exact (hG q (by have := hq.1; omega)).trans (seqCovering_right hq.1)
    · rw [hbetween next le_rfl (by omega), hbetween (next + 1) (by omega) (by omega)]
  · obtain ⟨h1, h2⟩ := hq
    simp only [interior] at h2
    have hleft : l.consumable ≤ (Term.seq l r).consumable := le_self_add
    have hright : l.language * r.consumable ≤ (Term.seq l r).consumable := le_add_self
    rcases Nat.lt_or_ge q (next + 2) with hq | hq
    · rw [seqCovering_between hq]
      exact mul_le_mul_right (l.language_le_consumable.trans hleft) H
    · rcases Nat.lt_or_ge q (next + 2 + interior l) with hq' | hq'
      · rw [seqCovering_left ⟨hq, hq'⟩]
        exact (hl.at_inside q ⟨hq, hq'⟩).trans (mul_le_mul_right hleft H)
      · rw [seqCovering_right hq']
        refine (hr.at_inside q ⟨hq', by omega⟩).trans ?_
        rw [mul_assoc]
        exact mul_le_mul_right hright H

end Sequences

/-! ## 3. Alternatives -/

section Alternatives

variable {l r : Term} {H : Language Char} {Fl Fr : Nat → Language Char} {q : Nat}

def altCovering (next : Nat) (l r : Term) (H : Language Char) (Fl Fr : Nat → Language Char)
    (q : Nat) : Language Char :=
  if q = next ∨ q = next + 2 then H
  else if q = next + 1 then H * l.language
  else if q = next + 3 then H * r.language
  else if q < next + 4 + interior l then Fl q
  else Fr q

theorem altCovering_enter (h : q = next ∨ q = next + 2) : altCovering next l r H Fl Fr q = H :=
  if_pos h

theorem altCovering_leaveLeft : altCovering next l r H Fl Fr (next + 1) = H * l.language := by
  rw [altCovering, if_neg (by omega), if_pos rfl]

theorem altCovering_leaveRight : altCovering next l r H Fl Fr (next + 3) = H * r.language := by
  rw [altCovering, if_neg (by omega), if_neg (by omega), if_pos rfl]

theorem altCovering_left (h : Inside (next + 4) l q) : altCovering next l r H Fl Fr q = Fl q := by
  obtain ⟨h1, h2⟩ := h
  rw [altCovering, if_neg (by omega), if_neg (by omega), if_neg (by omega), if_pos h2]

theorem altCovering_right (h : next + 4 + interior l ≤ q) :
    altCovering next l r H Fl Fr q = Fr q := by
  rw [altCovering, if_neg (by omega), if_neg (by omega), if_neg (by omega), if_neg (by omega)]

theorem hasCoverings_alt (ihl : HasCoverings l) (ihr : HasCoverings r) :
    HasCoverings (.alt l r) := by
  intro next entry exit hentry hexit hne H
  obtain ⟨Fl, hl⟩ := ihl (next + 4) next (next + 1) (by omega) (by omega) (by omega) H
  obtain ⟨Fr, hr⟩ := ihr (next + 4 + interior l) (next + 2) (next + 3) (by omega) (by omega)
    (by omega) H
  refine exists_covering_of_interior (altCovering next l r H Fl Fr) hentry hexit hne ?_
    fun q hq => ?_
  · intro G hGentry hGexit hG
    have henter : ∀ q, q = next ∨ q = next + 2 → G q = H :=
      fun q h => (hG q (by omega)).trans (altCovering_enter h)
    have hleaveLeft : G (next + 1) = H * l.language :=
      (hG _ (by omega)).trans altCovering_leaveLeft
    have hleaveRight : G (next + 3) = H * r.language :=
      (hG _ (by omega)).trans altCovering_leaveRight
    have hleft : l.language ≤ (Term.alt l r).language := le_self_add
    have hright : r.language ≤ (Term.alt l r).language := le_add_self
    rw [transitions_alt, covers_append, covers_append]
    simp only [covers_cons_epsilon]
    rw [hGentry, hGexit, hleaveLeft, hleaveRight, henter next (.inl rfl),
      henter (next + 2) (.inr rfl)]
    -- Both parts are entered after `H`, so the whole is left after what either of them matches.
    refine ⟨⟨?_, ?_⟩, le_rfl, le_rfl, mul_le_mul_right hleft H, mul_le_mul_right hright H,
      covers_nil⟩
    · refine hl.covers_of_agree (henter next (.inl rfl)).le hleaveLeft.ge fun q hq => ?_
      exact (hG q (by have := hq.1; omega)).trans (altCovering_left hq)
    · refine hr.covers_of_agree (henter (next + 2) (.inr rfl)).le hleaveRight.ge fun q hq => ?_
      exact (hG q (by have := hq.1; omega)).trans (altCovering_right hq.1)
  · obtain ⟨h1, h2⟩ := hq
    simp only [interior] at h2
    have hleft : l.consumable ≤ (Term.alt l r).consumable := le_self_add
    have hright : r.consumable ≤ (Term.alt l r).consumable := le_add_self
    rcases Nat.lt_or_ge q (next + 4) with hq | hq
    · obtain h | rfl | rfl : (q = next ∨ q = next + 2) ∨ q = next + 1 ∨ q = next + 3 := by omega
      · rw [altCovering_enter h]
        exact le_mul_of_one_le_right' (Term.one_le_consumable _)
      · rw [altCovering_leaveLeft]
        exact mul_le_mul_right (l.language_le_consumable.trans hleft) H
      · rw [altCovering_leaveRight]
        exact mul_le_mul_right (r.language_le_consumable.trans hright) H
    · rcases Nat.lt_or_ge q (next + 4 + interior l) with hq' | hq'
      · rw [altCovering_left ⟨hq, hq'⟩]
        exact (hl.at_inside q ⟨hq, hq'⟩).trans (mul_le_mul_right hleft H)
      · rw [altCovering_right hq']
        exact (hr.at_inside q ⟨hq', by omega⟩).trans (mul_le_mul_right hright H)

end Alternatives

/-! ## 4. Repetitions -/

theorem hasCoverings_star {t : Term} (ih : HasCoverings t) : HasCoverings (.star t) := by
  intro next entry exit hentry hexit hne H
  -- Before and after each round, any number of rounds has been read.
  let J := H * t.language∗
  obtain ⟨Ft, ht⟩ := ih (next + 2) next (next + 1) (by omega) (by omega) (by omega) J
  have hback : J * t.language ≤ J := by
    rw [mul_assoc]
    exact mul_le_mul_right kstar_mul_le_kstar H
  have hlast : pinned next (next + 1) J (J * t.language) Ft (next + 1) = J * t.language :=
    pinned_exit (by omega)
  have hagree : ∀ q, next + 2 ≤ q → pinned next (next + 1) J (J * t.language) Ft q = Ft q := by
    have hfirst : next < next + 2 := by omega
    have hsecond : next + 1 < next + 2 := by omega
    exact fun q h => pinned_of_le hfirst hsecond h
  refine exists_covering_of_interior (pinned next (next + 1) J (J * t.language) Ft) hentry hexit
    hne ?_ fun q hq => ?_
  · intro G hGentry hGexit hG
    have hGexit : G exit = J := hGexit
    have hGfirst : G next = J := (hG next le_rfl).trans pinned_entry
    have hGlast : G (next + 1) = J * t.language := (hG _ (by omega)).trans hlast
    have henter : H ≤ J := le_mul_of_one_le_right' one_le_kstar
    rw [transitions_star, covers_append]
    simp only [covers_cons_epsilon]
    rw [hGentry, hGexit, hGfirst, hGlast]
    refine ⟨?_, henter, henter, hback, hback, covers_nil⟩
    refine ht.covers_of_agree hGfirst.le hGlast.ge fun q hq => ?_
    exact (hG q (by have := hq.1; omega)).trans (hagree q hq.1)
  · obtain ⟨h1, h2⟩ := hq
    simp only [interior] at h2
    have hmatched : J ≤ H * (Term.star t).consumable :=
      mul_le_mul_right (Term.star t).language_le_consumable H
    rcases Nat.lt_or_ge q (next + 2) with hq | hq
    · obtain rfl | rfl : q = next ∨ q = next + 1 := by omega
      · exact pinned_entry.le.trans hmatched
      · exact hlast.le.trans (hback.trans hmatched)
    · rw [hagree q hq, Term.consumable, ← mul_assoc]
      exact ht.at_inside q ⟨hq, by omega⟩

/-- The block that a number lies in, and its place in the block. -/
theorem block_index (next size : Nat) {i q : Nat} (h1 : next + i * (1 + size) ≤ q)
    (h2 : q < next + i * (1 + size) + (1 + size)) :
    (q - next) / (1 + size) = i ∧ (q - next) % (1 + size) = q - (next + i * (1 + size)) := by
  obtain ⟨r, rfl⟩ := Nat.exists_eq_add_of_le h1
  have hr : r < 1 + size := by omega
  have hsub : next + i * (1 + size) + r - next = (1 + size) * i + r := by
    rw [Nat.mul_comm (1 + size) i]
    omega
  rw [hsub, Nat.mul_add_div (by omega), Nat.mul_add_mod, Nat.div_eq_of_lt hr, Nat.mod_eq_of_lt hr]
  omega

/-- The ends of a copy lie before its interior, and are apart. -/
theorem boundary_lt_innerFirst (size : Nat) {max i : Nat} (hentry : entry < next) (hexit : exit < next)
    (hne : entry ≠ exit) (hi : i < max) :
    boundary next size max entry exit i < innerFirst next size max i ∧
      boundary next size max entry exit (i + 1) < innerFirst next size max i ∧
      boundary next size max entry exit i ≠ boundary next size max entry exit (i + 1) := by
  have hfirst := (innerFirst_bounds next size hi).1
  have hge := le_innerFirst next size max i
  dsimp only [State]
  rcases Nat.lt_or_ge (i + 1) max with hlt | hlast
  · have hinner : innerFirst next size max i = next + i * (1 + size) + 1 :=
      if_neg (Nat.ne_of_lt hlt)
    rw [boundary_succ hlt, hinner]
    cases i with
    | zero =>
      rw [boundary_zero]
      omega
    | succ j =>
      rw [boundary_succ hi, Nat.succ_mul]
      omega
  · obtain rfl : i + 1 = max := by omega
    rw [boundary_max (Nat.succ_pos i)]
    cases i with
    | zero =>
      rw [boundary_zero]
      exact ⟨hentry.trans_le hge, hexit.trans_le hge, hne⟩
    | succ j =>
      rw [boundary_succ hi]
      rw [Nat.succ_mul] at hfirst
      refine ⟨?_, hexit.trans_le hge, ?_⟩ <;> omega

/-- The block of an interior state is that of a copy, and but for the first number of a block that
is not the last one, the state lies inside that copy. -/
theorem inside_cases {t : Term} {min max q : Nat} {ordered : min < max}
    (hq : Inside next (.times t min max ordered) q) :
    (q - next) / (1 + interior t) < max ∧
      (¬ ((q - next) / (1 + interior t) + 1 < max ∧ (q - next) % (1 + interior t) = 0) →
        Inside (innerFirst next (interior t) max ((q - next) / (1 + interior t))) t q) := by
  obtain ⟨h1, h2⟩ := hq
  have hsize := interior_times t min max ordered
  have hdiv := Nat.div_add_mod (q - next) (1 + interior t)
  have hmod := Nat.mod_lt (q - next) (show 1 + interior t > 0 by omega)
  have hblock : (q - next) / (1 + interior t) < max := by
    apply Nat.div_lt_of_lt_mul
    rw [Nat.mul_comm]
    omega
  refine ⟨hblock, fun hnot => ?_⟩
  rw [Nat.mul_comm] at hdiv
  unfold Inside innerFirst
  split
  · rename_i hlast
    have hend : (q - next) / (1 + interior t) * (1 + interior t) + (1 + interior t)
        = max * (1 + interior t) := by
      rw [← hlast, Nat.add_mul, Nat.one_mul]
    omega
  · omega

/-- A copy lies in its block, and only the last one begins with the first number of the block. -/
theorem Inside.in_block {t : Term} {max i q : Nat}
    (h : Inside (innerFirst next (interior t) max i) t q) :
    next + i * (1 + interior t) ≤ q ∧ q < next + i * (1 + interior t) + (1 + interior t) ∧
      (i + 1 = max ∨ next + i * (1 + interior t) < q) := by
  obtain ⟨h1, h2⟩ := h
  unfold innerFirst at h1 h2
  split at h1 <;> rename_i hlast
  · rw [if_pos hlast] at h2
    omega
  · rw [if_neg hlast] at h2
    omega

section Copies

variable {t : Term} {max i q : Nat} {H : Language Char} {Fs : Nat → Nat → Language Char}

/-- The interior of a repetition: the first state of a block, unless the block is the last one,
stands between two copies, and the others belong to the covering of the copy in the block. -/
def timesCovering (t : Term) (next max : Nat) (H : Language Char) (Fs : Nat → Nat → Language Char)
    (q : Nat) : Language Char :=
  if (q - next) / (1 + interior t) + 1 < max ∧ (q - next) % (1 + interior t) = 0 then
    H * t.language ^ ((q - next) / (1 + interior t) + 1)
  else Fs ((q - next) / (1 + interior t)) q

theorem timesCovering_between (h : i + 1 < max) :
    timesCovering t next max H Fs (next + i * (1 + interior t)) = H * t.language ^ (i + 1) := by
  obtain ⟨hblock, hplace⟩ := block_index next (interior t) (i := i) le_rfl (by omega)
  rw [Nat.sub_self] at hplace
  rw [timesCovering, hblock, hplace]
  exact if_pos ⟨h, rfl⟩

theorem timesCovering_copy (hq : Inside (innerFirst next (interior t) max i) t q) :
    timesCovering t next max H Fs q = Fs i q := by
  obtain ⟨hge, hlt, hcase⟩ := hq.in_block
  obtain ⟨hblock, hplace⟩ := block_index next (interior t) hge hlt
  rw [timesCovering, hblock, hplace]
  exact if_neg (by omega)

theorem timesCovering_le {min : Nat} {ordered : min < max}
    (hFs : ∀ i < max, ∀ q, Inside (innerFirst next (interior t) max i) t q →
      Fs i q ≤ H * t.language ^ i * t.consumable)
    (hq : Inside next (.times t min max ordered) q) :
    timesCovering t next max H Fs q ≤ H * (Term.times t min max ordered).consumable := by
  obtain ⟨hblock, hcopy⟩ := inside_cases hq
  unfold timesCovering
  split
  · rename_i h
    exact mul_le_mul_right
      (Term.pow_le_consumable_times t.language_le_consumable (Nat.le_of_lt h.1)) H
  · rename_i h
    refine (hFs _ hblock q (hcopy h)).trans ?_
    rw [mul_assoc]
    exact mul_le_mul_right (fun w hw => ⟨_, hblock, hw⟩) H

theorem hasCoverings_times {min : Nat} {ordered : min < max} (ih : HasCoverings t) :
    HasCoverings (.times t min max ordered) := by
  intro next entry exit hentry hexit hne H
  let stop := boundary next (interior t) max entry exit
  -- The copy after `i` others is entered after `i` parts.
  have hcopies : ∀ i, ∃ F, i < max → FragmentCovering t (innerFirst next (interior t) max i)
      (stop i) (stop (i + 1)) (H * t.language ^ i) F := by
    intro i
    by_cases hi : i < max
    · obtain ⟨h1, h2, h3⟩ := boundary_lt_innerFirst (interior t) hentry hexit hne hi
      obtain ⟨F, hF⟩ := ih _ _ _ h1 h2 h3 (H * t.language ^ i)
      exact ⟨F, fun _ => hF⟩
    · exact ⟨fun _ => 0, fun h => absurd h hi⟩
  choose Fs hFs using hcopies
  refine exists_covering_of_interior (timesCovering t next max H Fs) hentry hexit hne ?_
    fun q hq => timesCovering_le (fun i hi => (hFs i hi).at_inside) hq
  intro G hGentry hGexit hG
  have hstop : ∀ i < max, G (stop i) = H * t.language ^ i := by
    intro i hi
    cases i with
    | zero =>
      rw [pow_zero, mul_one]
      exact hGentry
    | succ j =>
      have heq : stop (j + 1) = next + j * (1 + interior t) := boundary_succ hi
      rw [heq, hG _ (Nat.le_add_right _ _)]
      exact timesCovering_between hi
  have hinside : ∀ i < max, ∀ q, Inside (innerFirst next (interior t) max i) t q →
      G q = Fs i q := by
    intro i _ q hq
    have hge := le_innerFirst next (interior t) max i
    exact (hG q (hge.trans hq.1)).trans (timesCovering_copy hq)
  have hpow : ∀ n, min ≤ n → n ≤ max →
      H * t.language ^ n ≤ H * (Term.times t min max ordered).language :=
    fun n hmin hmax => mul_le_mul_right (fun w hw => ⟨n, hmin, hmax, hw⟩) H
  rw [transitions_times, covers_append, covers_flatMap]
  constructor
  · intro i hi
    have hi := List.mem_range.1 hi
    refine (hFs i hi).covers_of_agree (hstop i hi).le ?_ (hinside i hi)
    rw [mul_assoc, ← pow_succ]
    rcases Nat.lt_or_ge (i + 1) max with hlt | hlast
    · exact (hstop (i + 1) hlt).ge
    · obtain rfl : i + 1 = max := by omega
      have heq : stop (i + 1) = exit := boundary_max (Nat.succ_pos i)
      rw [heq, hGexit]
      exact hpow (i + 1) (by omega) le_rfl
  · -- The edges that leave early have read enough parts for the exit.
    intro s u m he
    obtain ⟨i, hi, he⟩ := List.mem_map.1 he
    have hi := List.mem_range'_1.1 hi
    cases he
    rw [Matcher.language, mul_one, hGexit]
    exact (hstop i (by omega)).le.trans (hpow i (by omega) (by omega))

end Copies

/-! ## 5. Every term -/

/-- Every fragment whose states are apart has a covering, whatever was read before it. -/
theorem exists_covering (t : Term) : HasCoverings t := by
  induction t with
  | epsilon => exact hasCoverings_epsilon
  | one cls => exact hasCoverings_one cls
  | seq l r ihl ihr => exact hasCoverings_seq ihl ihr
  | alt l r ihl ihr => exact hasCoverings_alt ihl ihr
  | star t ih => exact hasCoverings_star ih
  | times t min max ordered ih => exact hasCoverings_times ih
  | labeled label t ih =>
    intro next entry exit hentry hexit hne H
    obtain ⟨F, hF⟩ := ih next entry exit hentry hexit hne H
    exact ⟨F, hF.covers, hF.at_entry, hF.at_exit, hF.at_inside⟩

end Thompson

end JsonAutomata
