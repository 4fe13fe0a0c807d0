/-!
# Sorted sets — finite sets as strictly ascending lists

Every finite set over an ordered type has exactly one strictly ascending list of members, so
equality of sorted sets is equality of sets (`SortedSet.ext_mem`) and iteration is in ascending
order. Each operation has one membership lemma; later proofs use these and not the lists.
-/

namespace JsonAutomata

universe u

/-! ## Operations on ascending lists -/

namespace Ascending

variable {α : Type u} [Ord α]

@[specialize]
def insert (a : α) : List α → List α
  | [] => [a]
  | b :: bs =>
    match compare a b with
    | .lt => a :: b :: bs
    | .eq => b :: bs
    | .gt => b :: insert a bs

/-- Searches for `a`, giving up at the first larger member. -/
@[specialize]
def contains (a : α) : List α → Bool
  | [] => false
  | b :: bs =>
    match compare a b with
    | .lt => false
    | .eq => true
    | .gt => contains a bs

/-- Merges `a :: as` into a list, where `mergeRest` merges `as`. -/
@[specialize]
def mergeCons (a : α) (as : List α) (mergeRest : List α → List α) : List α → List α
  | [] => a :: as
  | b :: bs =>
    match compare a b with
    | .lt => a :: mergeRest (b :: bs)
    | .eq => a :: mergeRest bs
    | .gt => b :: mergeCons a as mergeRest bs

/-- Merges two ascending lists, writing a common member once. -/
@[specialize]
def merge : List α → List α → List α
  | [] => fun bs => bs
  | a :: as => mergeCons a as (merge as)

abbrev Before (a b : α) : Prop := compare a b = .lt

variable [Std.TransOrd α] [Std.LawfulEqOrd α]

omit [Std.LawfulEqOrd α] in
theorem Before.trans {a b c : α} (hab : Before a b) (hbc : Before b c) : Before a c :=
  Std.TransCmp.lt_trans hab hbc

omit [Std.TransOrd α] in
theorem Before.irrefl (a : α) : ¬ Before a a := by
  simp [Before, Std.ReflCmp.compare_self]

omit [Std.TransOrd α] in
theorem mem_insert {a x : α} {l : List α} : x ∈ insert a l ↔ x = a ∨ x ∈ l := by
  induction l with
  | nil => simp [insert]
  | cons b bs ih =>
    simp only [insert]
    split
    · simp
    · rename_i h
      rw [Std.LawfulEqCmp.eq_of_compare h]
      simp
    · simp only [List.mem_cons, ih]
      exact ⟨fun h => by rcases h with h | h | h <;> simp [h],
        fun h => by rcases h with h | h | h <;> simp [h]⟩

theorem pairwise_insert {a : α} {l : List α} (h : l.Pairwise Before) :
    (insert a l).Pairwise Before := by
  induction l with
  | nil => simp [insert]
  | cons b bs ih =>
    rw [List.pairwise_cons] at h
    simp only [insert]
    split
    · rename_i hab
      refine List.pairwise_cons.2 ⟨fun x hx => ?_, List.pairwise_cons.2 h⟩
      rcases List.mem_cons.1 hx with rfl | hx
      · exact hab
      · exact Before.trans hab (h.1 x hx)
    · exact List.pairwise_cons.2 h
    · rename_i hab
      refine List.pairwise_cons.2 ⟨fun x hx => ?_, ih h.2⟩
      rcases mem_insert.1 hx with rfl | hx
      · exact Std.OrientedCmp.lt_of_gt hab
      · exact h.1 x hx

theorem contains_iff {a : α} {l : List α} (h : l.Pairwise Before) :
    contains a l = true ↔ a ∈ l := by
  induction l with
  | nil => simp [contains]
  | cons b bs ih =>
    rw [List.pairwise_cons] at h
    simp only [contains]
    split
    · rename_i hab
      -- `a` lies before every member, so it is none of them.
      refine ⟨fun h => by simp at h, fun hm => ?_⟩
      rcases List.mem_cons.1 hm with rfl | hm
      · exact absurd hab (Before.irrefl a)
      · exact absurd (Before.trans hab (h.1 a hm)) (Before.irrefl a)
    · rename_i hab
      rw [Std.LawfulEqCmp.eq_of_compare hab]
      simp
    · rename_i hab
      rw [ih h.2, List.mem_cons]
      refine ⟨Or.inr, fun hm => hm.resolve_left fun hx => ?_⟩
      subst hx
      simp [Std.ReflCmp.compare_self] at hab

omit [Std.TransOrd α] in
theorem mem_merge {x : α} {as bs : List α} : x ∈ merge as bs ↔ x ∈ as ∨ x ∈ bs := by
  induction as generalizing bs with
  | nil => simp [merge]
  | cons a as ih =>
    simp only [merge]
    induction bs with
    | nil => simp [mergeCons]
    | cons b bs ihb =>
      simp only [mergeCons]
      split
      · simp [ih, or_assoc]
      · rename_i h
        rw [Std.LawfulEqCmp.eq_of_compare h]
        simp only [List.mem_cons, ih]
        exact ⟨fun h => by rcases h with h | h | h <;> simp [h],
          fun h => by rcases h with (h | h) | (h | h) <;> simp [h]⟩
      · simp only [List.mem_cons, ihb]
        exact ⟨fun h => by rcases h with h | (h | h) | h <;> simp [h],
          fun h => by rcases h with (h | h) | (h | h) <;> simp [h]⟩

theorem pairwise_merge {as bs : List α} (ha : as.Pairwise Before) (hb : bs.Pairwise Before) :
    (merge as bs).Pairwise Before := by
  induction as generalizing bs with
  | nil => exact hb
  | cons a as ih =>
    rw [List.pairwise_cons] at ha
    have merged {ys : List α} (hys : ys.Pairwise Before) (h : ∀ y ∈ ys, Before a y) :
        (a :: merge as ys).Pairwise Before := by
      refine List.pairwise_cons.2 ⟨fun x hx => ?_, ih ha.2 hys⟩
      rcases mem_merge.1 hx with hx | hx
      · exact ha.1 x hx
      · exact h x hx
    simp only [merge]
    induction bs with
    | nil => exact List.pairwise_cons.2 ha
    | cons b bs ihb =>
      have hbs := List.pairwise_cons.1 hb
      simp only [mergeCons]
      split
      · rename_i hab
        refine merged hb fun y hy => ?_
        rcases List.mem_cons.1 hy with rfl | hy
        · exact hab
        · exact Before.trans hab (hbs.1 y hy)
      · rename_i hab
        refine merged hbs.2 fun y hy => ?_
        rw [Std.LawfulEqCmp.eq_of_compare hab]
        exact hbs.1 y hy
      · rename_i hab
        have hba : Before b a := Std.OrientedCmp.lt_of_gt hab
        refine List.pairwise_cons.2 ⟨fun x hx => ?_, ihb hbs.2⟩
        have hx : x ∈ merge (a :: as) bs := hx
        rcases mem_merge.1 hx with hx | hx
        · rcases List.mem_cons.1 hx with rfl | hx
          · exact hba
          · exact Before.trans hba (ha.1 x hx)
        · exact hbs.1 x hx

/-- Two ascending lists with the same members are the same list. -/
theorem eq_of_mem_iff {as bs : List α} (ha : as.Pairwise Before) (hb : bs.Pairwise Before)
    (h : ∀ x, x ∈ as ↔ x ∈ bs) : as = bs := by
  induction as generalizing bs with
  | nil =>
    cases bs with
    | nil => rfl
    | cons b bs => simpa using (h b).2 (by simp)
  | cons a as ih =>
    cases bs with
    | nil => simpa using (h a).1 (by simp)
    | cons b bs =>
      rw [List.pairwise_cons] at ha hb
      -- Each head lies before the whole other tail, so the heads agree.
      have hab : a = b := by
        rcases List.mem_cons.1 ((h a).1 (by simp)) with hab | hab
        · exact hab
        · rcases List.mem_cons.1 ((h b).2 (by simp)) with hba | hba
          · exact hba.symm
          · exact absurd (Before.trans (hb.1 a hab) (ha.1 b hba)) (Before.irrefl b)
      subst hab
      congr 1
      refine ih ha.2 hb.2 fun x => ?_
      have hx := h x
      simp only [List.mem_cons] at hx
      constructor
      · intro hm
        rcases hx.1 (.inr hm) with rfl | hm'
        · exact absurd (ha.1 x hm) (Before.irrefl x)
        · exact hm'
      · intro hm
        rcases hx.2 (.inr hm) with rfl | hm'
        · exact absurd (hb.1 x hm) (Before.irrefl x)
        · exact hm'

end Ascending

/-! ## The type of sorted sets -/

/-- A finite set, held as the strictly ascending list of its members. -/
structure SortedSet (α : Type u) [Ord α] where
  toList : List α
  ascending : toList.Pairwise Ascending.Before

namespace SortedSet

variable {α : Type u} [Ord α]

instance : Membership α (SortedSet α) := ⟨fun s a => a ∈ s.toList⟩

instance [DecidableEq α] : DecidableEq (SortedSet α) := fun s t =>
  decidable_of_iff (s.toList = t.toList) ⟨fun h => by cases s; cases t; simp_all, fun h => h ▸ rfl⟩

theorem mem_toList {a : α} {s : SortedSet α} : a ∈ s.toList ↔ a ∈ s := Iff.rfl

def empty : SortedSet α := ⟨[], .nil⟩

instance : EmptyCollection (SortedSet α) := ⟨empty⟩
instance : Inhabited (SortedSet α) := ⟨empty⟩

def singleton (a : α) : SortedSet α := ⟨[a], List.pairwise_singleton _ _⟩

def isEmpty (s : SortedSet α) : Bool := s.toList.isEmpty

def size (s : SortedSet α) : Nat := s.toList.length

@[inline]
def contains (s : SortedSet α) (a : α) : Bool := Ascending.contains a s.toList

@[inline]
def filter (p : α → Bool) (s : SortedSet α) : SortedSet α :=
  ⟨s.toList.filter p, s.ascending.filter p⟩

@[inline]
def find? (p : α → Bool) (s : SortedSet α) : Option α := s.toList.find? p

variable [Std.TransOrd α] [Std.LawfulEqOrd α]

@[inline]
def insert (a : α) (s : SortedSet α) : SortedSet α :=
  ⟨Ascending.insert a s.toList, Ascending.pairwise_insert s.ascending⟩

@[inline]
def union (s t : SortedSet α) : SortedSet α :=
  ⟨Ascending.merge s.toList t.toList, Ascending.pairwise_merge s.ascending t.ascending⟩

instance : Union (SortedSet α) := ⟨union⟩

@[specialize]
def ofList : List α → SortedSet α
  | [] => empty
  | a :: as => (ofList as).insert a

@[inline]
def diff (s t : SortedSet α) : SortedSet α := s.filter fun a => !t.contains a

instance : SDiff (SortedSet α) := ⟨diff⟩

/-! ## Membership -/

@[ext]
theorem ext_mem {s t : SortedSet α} (h : ∀ a, a ∈ s ↔ a ∈ t) : s = t := by
  have hl := Ascending.eq_of_mem_iff s.ascending t.ascending h
  cases s; cases t; simp_all

omit [Std.TransOrd α] [Std.LawfulEqOrd α] in
@[simp]
theorem not_mem_empty (a : α) : ¬ a ∈ (∅ : SortedSet α) := List.not_mem_nil

omit [Std.TransOrd α] [Std.LawfulEqOrd α] in
@[simp]
theorem mem_singleton {a b : α} : a ∈ singleton b ↔ a = b := List.mem_singleton

@[simp]
theorem contains_iff {a : α} {s : SortedSet α} : s.contains a = true ↔ a ∈ s :=
  Ascending.contains_iff s.ascending

omit [Std.TransOrd α] [Std.LawfulEqOrd α] in
@[simp]
theorem mem_filter {a : α} {p : α → Bool} {s : SortedSet α} : a ∈ s.filter p ↔ a ∈ s ∧ p a = true :=
  List.mem_filter

@[simp]
theorem mem_insert {a b : α} {s : SortedSet α} : a ∈ s.insert b ↔ a = b ∨ a ∈ s :=
  Ascending.mem_insert

@[simp]
theorem mem_union {a : α} {s t : SortedSet α} : a ∈ s ∪ t ↔ a ∈ s ∨ a ∈ t :=
  Ascending.mem_merge

@[simp]
theorem mem_ofList {a : α} {l : List α} : a ∈ ofList l ↔ a ∈ l := by
  induction l with
  | nil => exact Iff.rfl
  | cons b bs ih => simp [ofList, ih]

@[simp]
theorem mem_diff {a : α} {s t : SortedSet α} : a ∈ s \ t ↔ a ∈ s ∧ ¬ a ∈ t := by
  show a ∈ s.filter (fun a => !t.contains a) ↔ _
  simp [← Bool.not_eq_true]

omit [Std.TransOrd α] [Std.LawfulEqOrd α] in
theorem isEmpty_iff {s : SortedSet α} : s.isEmpty = true ↔ ∀ a, ¬ a ∈ s := by
  rw [isEmpty, List.isEmpty_iff]
  exact List.eq_nil_iff_forall_not_mem

end SortedSet

end JsonAutomata
