import JsonAutomata.Proofs.Thompson.Correctness

/-!
# Entering parts — how paths come to the states of a part

Every edge to a state behind the entry of a part belongs to the part, so a path that ends there has
passed the entry (`exists_entry`).  For each operator this tells what has been read before a part is
entered for the last time: nothing, what the parts in front of it match, or complete rounds.
-/

open Computability

namespace JsonAutomata

namespace Automaton

variable {A B : Automaton} {s e q : Nat} {w : List Char}

/-! ## 1. Last edges -/

/-- The last edge of a path that reaches its end by edges without text only. -/
theorem Path.last_epsilon (path : A.Path s w q)
    (hinto : ∀ p m, ⟨p, q, m⟩ ∈ A.transitions → m = .epsilon) :
    (s = q ∧ w = []) ∨ ∃ p, A.Path s w p ∧ ⟨p, q, .epsilon⟩ ∈ A.transitions := by
  -- The last edge of what is left is the last one of the path, unless nothing is left.
  induction path with
  | refl => exact .inl ⟨rfl, rfl⟩
  | skip edge _ ih =>
    rcases ih hinto with ⟨rfl, rfl⟩ | ⟨p, path, last⟩
    · exact .inr ⟨_, .refl _, edge⟩
    · exact .inr ⟨p, .skip edge path, last⟩
  | consume edge hc _ ih =>
    rcases ih hinto with ⟨rfl, rfl⟩ | ⟨p, path, last⟩
    · cases hinto _ _ edge
    · exact .inr ⟨p, .consume edge hc path, last⟩

/-- No path leads to a state that no edge enters. -/
theorem Path.eq_of_no_edge (path : A.Path s w q) (hinto : ∀ p m, ¬ ⟨p, q, m⟩ ∈ A.transitions) :
    s = q ∧ w = [] := by
  rcases path.last_epsilon fun p m edge => absurd edge (hinto p m) with h | ⟨p, -, edge⟩
  · exact h
  · exact absurd edge (hinto p .epsilon)

/-- A path to a state of `I` from elsewhere passes the entry `e` if all edges to states of `I`
belong to `B` and begin at the entry or in `I`. -/
theorem Path.exists_entry {I : Nat → Prop} (path : A.Path s w q) (hs : ¬ I s) (hq : I q)
    (hinto : ∀ p u m, ⟨p, u, m⟩ ∈ A.transitions → I u →
      ⟨p, u, m⟩ ∈ B.transitions ∧ (p = e ∨ I p)) :
    ∃ u v, u ++ v = w ∧ A.Path s u e ∧ B.Path e v q := by
  -- Along the path, what is left lies in `B` as a whole, or from a later entry on.
  have hsplit : (B.Path s w q ∧ (s = e ∨ I s)) ∨
      ∃ u v, u ++ v = w ∧ A.Path s u e ∧ B.Path e v q := by
    clear hs
    induction path with
    | refl => exact .inl ⟨.refl _, .inr hq⟩
    | skip edge _ ih =>
      rcases ih hq with ⟨path, rfl | hI⟩ | ⟨u, v, rfl, before, path⟩
      · exact .inr ⟨[], _, rfl, .skip edge (.refl _), path⟩
      · have ⟨hedge, hsource⟩ := hinto _ _ _ edge hI
        exact .inl ⟨.skip hedge path, hsource⟩
      · exact .inr ⟨u, v, rfl, .skip edge before, path⟩
    | @consume s t q c w cls edge hc _ ih =>
      rcases ih hq with ⟨path, rfl | hI⟩ | ⟨u, v, rfl, before, path⟩
      · exact .inr ⟨[c], _, rfl, .consume edge hc (.refl _), path⟩
      · have ⟨hedge, hsource⟩ := hinto _ _ _ edge hI
        exact .inl ⟨.consume hedge hc path, hsource⟩
      · exact .inr ⟨c :: u, v, rfl, .consume edge hc before, path⟩
  rcases hsplit with ⟨path, rfl | hI⟩ | h
  · exact ⟨[], w, rfl, .refl _, path⟩
  · exact absurd hI hs
  · exact h

end Automaton

namespace Thompson

open Automaton

variable {l r t : Term} {next entry exit q : Nat} {w : List Char}

def Behind (next : Nat) (t : Term) (exit q : Nat) : Prop := q = exit ∨ Inside next t q

theorem not_edge_entry {p : Nat} {m : Matcher} (hentry : entry < next) (hne : entry ≠ exit) :
    ¬ ⟨p, entry, m⟩ ∈ (fragment t next entry exit).transitions := by
  intro edge
  rcases (edge_between edge).2 with h | h
  · exact hne h
  · exact absurd h.1 (Nat.not_le_of_lt hentry)

/-- Every path to the entry is empty. -/
theorem path_entry (path : (fragment t next entry exit).Path entry w entry) (hentry : entry < next)
    (hne : entry ≠ exit) : w = [] :=
  (path.eq_of_no_edge fun _ _ => not_edge_entry hentry hne).2

/-- The exit of a part, and its interior, are entered by its entry. -/
theorem exists_entry {A : Automaton} {s first last : Nat} (path : A.Path s w q)
    (hs : ¬ Behind first t last s) (hq : Behind first t last q)
    (hinto : ∀ p u m, ⟨p, u, m⟩ ∈ A.transitions → Behind first t last u →
      ⟨p, u, m⟩ ∈ (fragment t first entry last).transitions) :
    ∃ u v, u ++ v = w ∧ A.Path s u entry ∧ (fragment t first entry last).Path entry v q := by
  refine path.exists_entry hs hq fun p u m edge hu => ?_
  have hedge := hinto p u m edge hu
  exact ⟨hedge, (edge_between hedge).1.imp id .inr⟩

/-! ## 2. Sequences -/

/-- An edge of a sequence belongs to one of its parts or joins them. -/
theorem edge_seq {p u : Nat} {m : Matcher}
    (edge : ⟨p, u, m⟩ ∈ (fragment (.seq l r) next entry exit).transitions) :
    (⟨p, u, m⟩ ∈ (fragment l (next + 2) entry next).transitions ∧ Behind (next + 2) l next u) ∨
      (⟨p, u, m⟩ ∈ (fragment r (next + 2 + interior l) (next + 1) exit).transitions ∧
        Behind (next + 2 + interior l) r exit u) ∨
      (p = next ∧ u = next + 1 ∧ m = .epsilon) := by
  rw [transitions_seq, List.mem_append, List.mem_append, List.mem_singleton] at edge
  rcases edge with (edge | edge) | edge
  · exact .inl ⟨edge, (edge_between edge).2⟩
  · exact .inr (.inl ⟨edge, (edge_between edge).2⟩)
  · cases edge
    exact .inr (.inr ⟨rfl, rfl, rfl⟩)

theorem seq_path_left (hentry : entry < next) (hexit : exit < next) (hne : entry ≠ exit)
    (path : (fragment (.seq l r) next entry exit).Path entry w q)
    (hq : Behind (next + 2) l next q) : (fragment l (next + 2) entry next).Path entry w q := by
  have hinto : ∀ p u m, ⟨p, u, m⟩ ∈ (fragment (.seq l r) next entry exit).transitions →
      Behind (next + 2) l next u → ⟨p, u, m⟩ ∈ (fragment l (next + 2) entry next).transitions := by
    intro p u m edge hu
    rcases edge_seq edge with ⟨edge, -⟩ | ⟨-, hu'⟩ | ⟨-, rfl, -⟩
    · exact edge
    · unfold Behind Inside at hu hu'
      omega
    · unfold Behind Inside at hu
      omega
  have hout : ¬ Behind (next + 2) l next entry := by
    unfold Behind Inside
    omega
  -- The parts begin with the same state, to which no edge leads back.
  rcases exists_entry path hout hq hinto with ⟨u, v, rfl, before, inner⟩
  rw [path_entry before hentry hne]
  exact inner

theorem seq_path_right (hentry : entry < next) (hexit : exit < next) (hne : entry ≠ exit)
    (path : (fragment (.seq l r) next entry exit).Path entry w q)
    (hq : Behind (next + 2 + interior l) r exit q) :
    ∃ u v, u ++ v = w ∧ u ∈ l.language ∧
      (fragment r (next + 2 + interior l) (next + 1) exit).Path (next + 1) v q := by
  have hinto : ∀ p u m, ⟨p, u, m⟩ ∈ (fragment (.seq l r) next entry exit).transitions →
      Behind (next + 2 + interior l) r exit u →
      ⟨p, u, m⟩ ∈ (fragment r (next + 2 + interior l) (next + 1) exit).transitions := by
    intro p u m edge hu
    unfold Behind Inside at hu
    rcases edge_seq edge with ⟨-, hu'⟩ | ⟨edge, -⟩ | ⟨-, rfl, -⟩
    · unfold Behind Inside at hu'
      omega
    · exact edge
    · omega
  have hout : ¬ Behind (next + 2 + interior l) r exit entry := by
    unfold Behind Inside
    omega
  rcases exists_entry path hout hq hinto with ⟨u, v, rfl, before, inner⟩
  refine ⟨u, v, rfl, ?_, inner⟩
  -- The only edge to the entry of the second part comes from the exit of the first one.
  have hjoin : ∀ p m, ⟨p, next + 1, m⟩ ∈ (fragment (.seq l r) next entry exit).transitions →
      p = next ∧ m = .epsilon := by
    intro p m edge
    rcases edge_seq edge with ⟨-, hu⟩ | ⟨-, hu⟩ | ⟨rfl, -, rfl⟩
    · unfold Behind Inside at hu
      omega
    · unfold Behind Inside at hu
      omega
    · exact ⟨rfl, rfl⟩
  rcases before.last_epsilon fun p m edge => (hjoin p m edge).2 with ⟨h, -⟩ | ⟨p, before, edge⟩
  · omega
  · obtain ⟨rfl, -⟩ := hjoin p .epsilon edge
    have hleft := seq_path_left hentry hexit hne before (.inl rfl)
    exact (path_exit_iff (by omega) (by omega) (by omega)).1 hleft

/-! ## 3. Alternatives -/

/-- An edge of an alternative belongs to one of its parts, enters one or leaves one. -/
theorem edge_alt {p u : Nat} {m : Matcher}
    (edge : ⟨p, u, m⟩ ∈ (fragment (.alt l r) next entry exit).transitions) :
    (⟨p, u, m⟩ ∈ (fragment l (next + 4) next (next + 1)).transitions ∧
        Behind (next + 4) l (next + 1) u) ∨
      (⟨p, u, m⟩ ∈ (fragment r (next + 4 + interior l) (next + 2) (next + 3)).transitions ∧
        Behind (next + 4 + interior l) r (next + 3) u) ∨
      (m = .epsilon ∧ p = entry ∧ (u = next ∨ u = next + 2)) ∨ u = exit := by
  rw [transitions_alt, List.mem_append, List.mem_append] at edge
  rcases edge with (edge | edge) | edge
  · exact .inl ⟨edge, (edge_between edge).2⟩
  · exact .inr (.inl ⟨edge, (edge_between edge).2⟩)
  · simp only [List.mem_cons, List.not_mem_nil, or_false] at edge
    rcases edge with edge | edge | edge | edge <;> cases edge
    · exact .inr (.inr (.inl ⟨rfl, rfl, .inl rfl⟩))
    · exact .inr (.inr (.inl ⟨rfl, rfl, .inr rfl⟩))
    · exact .inr (.inr (.inr rfl))
    · exact .inr (.inr (.inr rfl))

/-- Nothing is read before a state that only the entry leads to. -/
theorem path_from_entry {first : Nat} (hentry : entry < next) (hne : entry ≠ exit)
    (path : (fragment t next entry exit).Path entry w first) (hfirst : entry ≠ first)
    (honly : ∀ p m, ⟨p, first, m⟩ ∈ (fragment t next entry exit).transitions →
      m = .epsilon ∧ p = entry) : w = [] := by
  rcases path.last_epsilon fun p m edge => (honly p m edge).1 with ⟨h, -⟩ | ⟨p, before, edge⟩
  · exact absurd h hfirst
  · obtain ⟨-, rfl⟩ := honly p .epsilon edge
    exact path_entry before hentry hne

theorem alt_path_left (hentry : entry < next) (hexit : exit < next) (hne : entry ≠ exit)
    (path : (fragment (.alt l r) next entry exit).Path entry w q)
    (hq : Behind (next + 4) l (next + 1) q) :
    (fragment l (next + 4) next (next + 1)).Path next w q := by
  have hinto : ∀ p u m, ⟨p, u, m⟩ ∈ (fragment (.alt l r) next entry exit).transitions →
      Behind (next + 4) l (next + 1) u →
      ⟨p, u, m⟩ ∈ (fragment l (next + 4) next (next + 1)).transitions := by
    intro p u m edge hu
    unfold Behind Inside at hu
    rcases edge_alt edge with ⟨edge, -⟩ | ⟨-, hu'⟩ | h
    · exact edge
    · unfold Behind Inside at hu'
      omega
    · omega
  have honly : ∀ p m, ⟨p, next, m⟩ ∈ (fragment (.alt l r) next entry exit).transitions →
      m = .epsilon ∧ p = entry := by
    intro p m edge
    rcases edge_alt edge with ⟨-, hu⟩ | ⟨-, hu⟩ | ⟨hm, hp, -⟩ | hu
    · unfold Behind Inside at hu
      omega
    · unfold Behind Inside at hu
      omega
    · exact ⟨hm, hp⟩
    · omega
  have hout : ¬ Behind (next + 4) l (next + 1) entry := by
    unfold Behind Inside
    omega
  rcases exists_entry path hout hq hinto with ⟨u, v, rfl, before, inner⟩
  rw [path_from_entry hentry hne before (by omega) honly]
  exact inner

theorem alt_path_right (hentry : entry < next) (hexit : exit < next) (hne : entry ≠ exit)
    (path : (fragment (.alt l r) next entry exit).Path entry w q)
    (hq : Behind (next + 4 + interior l) r (next + 3) q) :
    (fragment r (next + 4 + interior l) (next + 2) (next + 3)).Path (next + 2) w q := by
  have hinto : ∀ p u m, ⟨p, u, m⟩ ∈ (fragment (.alt l r) next entry exit).transitions →
      Behind (next + 4 + interior l) r (next + 3) u →
      ⟨p, u, m⟩ ∈ (fragment r (next + 4 + interior l) (next + 2) (next + 3)).transitions := by
    intro p u m edge hu
    unfold Behind Inside at hu
    rcases edge_alt edge with ⟨-, hu'⟩ | ⟨edge, -⟩ | h
    · unfold Behind Inside at hu'
      omega
    · exact edge
    · omega
  have honly : ∀ p m, ⟨p, next + 2, m⟩ ∈ (fragment (.alt l r) next entry exit).transitions →
      m = .epsilon ∧ p = entry := by
    intro p m edge
    rcases edge_alt edge with ⟨-, hu⟩ | ⟨-, hu⟩ | ⟨hm, hp, -⟩ | hu
    · unfold Behind Inside at hu
      omega
    · unfold Behind Inside at hu
      omega
    · exact ⟨hm, hp⟩
    · omega
  have hout : ¬ Behind (next + 4 + interior l) r (next + 3) entry := by
    unfold Behind Inside
    omega
  rcases exists_entry path hout hq hinto with ⟨u, v, rfl, before, inner⟩
  rw [path_from_entry hentry hne before (by omega) honly]
  exact inner

/-! ## 4. Repetitions -/

theorem edge_star {p u : Nat} {m : Matcher}
    (edge : ⟨p, u, m⟩ ∈ (fragment (.star t) next entry exit).transitions) :
    (⟨p, u, m⟩ ∈ (fragment t (next + 2) next (next + 1)).transitions ∧
        Behind (next + 2) t (next + 1) u) ∨
      (m = .epsilon ∧ (p = entry ∨ p = next + 1) ∧ (u = next ∨ u = exit)) := by
  rw [transitions_star, List.mem_append] at edge
  rcases edge with edge | edge
  · exact .inl ⟨edge, (edge_between edge).2⟩
  · simp only [List.mem_cons, List.not_mem_nil, or_false] at edge
    rcases edge with edge | edge | edge | edge <;> cases edge
    · exact .inr ⟨rfl, .inl rfl, .inl rfl⟩
    · exact .inr ⟨rfl, .inl rfl, .inr rfl⟩
    · exact .inr ⟨rfl, .inr rfl, .inl rfl⟩
    · exact .inr ⟨rfl, .inr rfl, .inr rfl⟩

/-- The body is entered where the repetition could be left, so after complete rounds. -/
theorem mem_kstar_of_path_first (hentry : entry < next) (hexit : exit < next) (hne : entry ≠ exit)
    (path : (fragment (.star t) next entry exit).Path entry w next) : w ∈ t.language∗ := by
  have honly : ∀ p m, ⟨p, next, m⟩ ∈ (fragment (.star t) next entry exit).transitions →
      m = .epsilon ∧ (p = entry ∨ p = next + 1) := by
    intro p m edge
    rcases edge_star edge with ⟨-, hu⟩ | ⟨hm, hp, -⟩
    · unfold Behind Inside at hu
      omega
    · exact ⟨hm, hp⟩
  rcases path.last_epsilon fun p m edge => (honly p m edge).1 with ⟨h, -⟩ | ⟨p, before, edge⟩
  · omega
  · -- Whatever leads to the body leads to the exit as well.
    have leave : ⟨p, exit, .epsilon⟩ ∈ (fragment (.star t) next entry exit).transitions := by
      rw [transitions_star]
      rcases (honly p .epsilon edge).2 with rfl | rfl <;> simp
    have hleft := before.append (edge_path leave)
    rw [List.append_nil] at hleft
    exact (path_exit_iff hentry hexit hne).1 hleft

theorem star_path_body (hentry : entry < next) (hexit : exit < next) (hne : entry ≠ exit)
    (path : (fragment (.star t) next entry exit).Path entry w q)
    (hq : Behind (next + 2) t (next + 1) q) :
    ∃ u v, u ++ v = w ∧ u ∈ t.language∗ ∧
      (fragment t (next + 2) next (next + 1)).Path next v q := by
  have hinto : ∀ p u m, ⟨p, u, m⟩ ∈ (fragment (.star t) next entry exit).transitions →
      Behind (next + 2) t (next + 1) u →
      ⟨p, u, m⟩ ∈ (fragment t (next + 2) next (next + 1)).transitions := by
    intro p u m edge hu
    unfold Behind Inside at hu
    rcases edge_star edge with ⟨edge, -⟩ | ⟨-, -, hu'⟩
    · exact edge
    · omega
  have hout : ¬ Behind (next + 2) t (next + 1) entry := by
    unfold Behind Inside
    omega
  rcases exists_entry path hout hq hinto with ⟨u, v, rfl, before, inner⟩
  exact ⟨u, v, rfl, mem_kstar_of_path_first hentry hexit hne before, inner⟩

variable {min max i : Nat} {ordered : min < max}

/-- The state lies behind the entry of the copy after `i` others, but is not the exit of all. -/
def InCopy (t : Term) (next max entry exit i q : Nat) : Prop :=
  Behind (innerFirst next (interior t) max i) t
    (boundary next (interior t) max entry exit (i + 1)) q ∧ q ≠ exit

/-- A copy is known by the block that holds its states. -/
theorem InCopy.block (h : InCopy t next max entry exit i q) (hi : i < max) :
    next ≤ q ∧ (q - next) / (1 + interior t) = i := by
  rcases h with ⟨hq, hne⟩
  have hblock : next + i * (1 + interior t) ≤ q ∧
      q < next + i * (1 + interior t) + (1 + interior t) := by
    rcases hq with rfl | hinside
    · rcases Nat.lt_or_ge (i + 1) max with hlt | hge
      · rw [boundary_succ hlt]
        omega
      · obtain rfl : i + 1 = max := Nat.le_antisymm hi hge
        exact absurd (boundary_max (Nat.succ_pos i)) hne
    · obtain ⟨hge, hlt, -⟩ := Inside.in_block hinside
      exact ⟨hge, hlt⟩
  have hnext := Nat.le_add_right next (i * (1 + interior t))
  exact ⟨hnext.trans hblock.1, (block_index next (interior t) hblock.1 hblock.2).1⟩

/-- The exit of a copy that is not the last one. -/
theorem inCopy_boundary (hexit : exit < next) (hi : i + 1 < max) :
    InCopy t next max entry exit i (boundary next (interior t) max entry exit (i + 1)) := by
  refine ⟨.inl rfl, ?_⟩
  rw [boundary_succ hi]
  have hnext := Nat.le_add_right next (i * (1 + interior t))
  omega

theorem edge_into_copy (hexit : exit < next) (hi : i < max) {p u : Nat} {m : Matcher}
    (edge : ⟨p, u, m⟩ ∈ (fragment (.times t min max ordered) next entry exit).transitions)
    (hu : InCopy t next max entry exit i u) :
    ⟨p, u, m⟩ ∈ (copy t next max entry exit i).transitions ∧
      (p = boundary next (interior t) max entry exit i ∨ InCopy t next max entry exit i p) := by
  rw [transitions_times, List.mem_append, List.mem_flatMap, List.mem_map] at edge
  rcases edge with ⟨j, hj, edge⟩ | ⟨j, -, edge⟩
  · -- The target lies in the block of the copy that the edge belongs to.
    have ⟨hsource, htarget⟩ := edge_between edge
    have hblock := (InCopy.block ⟨htarget, hu.2⟩ (List.mem_range.1 hj)).2
    rw [(hu.block hi).2] at hblock
    subst hblock
    refine ⟨edge, hsource.imp id fun hinside => ⟨.inr hinside, ?_⟩⟩
    have hfirst := le_innerFirst next (interior t) max i
    have hge := hinside.1
    omega
  · cases edge
    exact absurd rfl hu.2

theorem times_path_entry (hentry : entry < next) (hexit : exit < next) (hi : i < max)
    (path : (fragment (.times t min max ordered) next entry exit).Path entry w q)
    (hq : InCopy t next max entry exit i q) :
    ∃ u v, u ++ v = w ∧
      (fragment (.times t min max ordered) next entry exit).Path entry u
        (boundary next (interior t) max entry exit i) ∧
      (copy t next max entry exit i).Path (boundary next (interior t) max entry exit i) v q := by
  have hout : ¬ InCopy t next max entry exit i entry :=
    fun h => absurd (h.block hi).1 (Nat.not_le_of_lt hentry)
  exact path.exists_entry hout hq fun p u m edge hu => edge_into_copy hexit hi edge hu

/-- The stop after `i` copies is reached after `i` parts. -/
theorem mem_pow_of_path_boundary (hentry : entry < next) (hexit : exit < next) (hne : entry ≠ exit)
    (hi : i < max) (path : (fragment (.times t min max ordered) next entry exit).Path entry w
      (boundary next (interior t) max entry exit i)) : w ∈ t.language ^ i := by
  induction i generalizing w with
  | zero =>
    rw [pow_zero, Language.mem_one]
    exact path_entry path hentry hne
  | succ i ih =>
    have hcopy : i < max := Nat.lt_of_succ_lt hi
    rcases times_path_entry hentry hexit hcopy path (inCopy_boundary hexit hi) with
      ⟨u, v, rfl, before, inner⟩
    -- One part less is read up to the copy before, and this copy reads the last one.
    have ⟨h1, h2, h3⟩ := boundary_lt_innerFirst (interior t) hentry hexit hne hcopy
    rw [pow_succ]
    exact Language.append_mem_mul (ih hcopy before) ((path_exit_iff h1 h2 h3).1 inner)

/-- The copy after `i` others is entered after `i` parts. -/
theorem times_path_copy (hentry : entry < next) (hexit : exit < next) (hne : entry ≠ exit)
    (hi : i < max) (path : (fragment (.times t min max ordered) next entry exit).Path entry w q)
    (hq : InCopy t next max entry exit i q) :
    ∃ u v, u ++ v = w ∧ u ∈ t.language ^ i ∧
      (copy t next max entry exit i).Path (boundary next (interior t) max entry exit i) v q := by
  rcases times_path_entry hentry hexit hi path hq with ⟨u, v, rfl, before, inner⟩
  exact ⟨u, v, rfl, mem_pow_of_path_boundary hentry hexit hne hi before, inner⟩

end Thompson

end JsonAutomata
