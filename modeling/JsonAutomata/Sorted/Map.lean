import JsonAutomata.Sorted.Set

/-!
# Sorted maps — finite maps as lists of entries with strictly ascending keys

`Entries.insert` and `Entries.lookup` work on plain lists of entries, because a recursive type can
hold such lists in its constructors; `SortedMap` adds the proof that the keys ascend. The law of
both is that a look-up sees the last insertion for its key (`Entries.lookup_insert`).
-/

namespace JsonAutomata

universe u v

/-! ## Lists of entries -/

namespace Entries

variable {κ : Type u} {ν : Type v} [Ord κ]

/-- Enters `value` under `key` at its place, replacing the entry that `key` had. -/
@[specialize]
def insert (key : κ) (value : ν) : List (κ × ν) → List (κ × ν)
  | [] => [(key, value)]
  | (k, v) :: rest =>
    match compare key k with
    | .lt => (key, value) :: (k, v) :: rest
    | .eq => (key, value) :: rest
    | .gt => (k, v) :: insert key value rest

/-- The value under `key`, giving up at the first larger key. -/
@[specialize]
def lookup (key : κ) : List (κ × ν) → Option ν
  | [] => none
  | (k, v) :: rest =>
    match compare key k with
    | .lt => none
    | .eq => some v
    | .gt => lookup key rest

/-- Enters the pairs of a list from left to right, so that of equal keys the last one stays. -/
def ofList (pairs : List (κ × ν)) : List (κ × ν) :=
  pairs.foldl (fun entries pair => insert pair.1 pair.2 entries) []

abbrev KeysAscend (entries : List (κ × ν)) : Prop :=
  entries.Pairwise fun a b => Ascending.Before a.1 b.1

variable [Std.TransOrd κ] [Std.LawfulEqOrd κ]

omit [Std.TransOrd κ] [Std.LawfulEqOrd κ] in
theorem mem_of_mem_insert {key : κ} {value : ν} {x : κ × ν} {entries : List (κ × ν)}
    (h : x ∈ insert key value entries) : x = (key, value) ∨ x ∈ entries := by
  induction entries with
  | nil => simpa [insert] using h
  | cons e rest ih =>
    simp only [insert] at h
    split at h
    · simpa using h
    · exact (List.mem_cons.1 h).imp_right (List.mem_cons_of_mem e)
    · rcases List.mem_cons.1 h with rfl | h
      · simp
      · exact (ih h).imp_right (List.mem_cons_of_mem e)

theorem keysAscend_insert {key : κ} {value : ν} {entries : List (κ × ν)}
    (h : KeysAscend entries) : KeysAscend (insert key value entries) := by
  induction entries with
  | nil => simp [insert, KeysAscend]
  | cons e rest ih =>
    rw [KeysAscend, List.pairwise_cons] at h
    simp only [insert]
    split
    · rename_i hlt
      refine List.pairwise_cons.2 ⟨fun x hx => ?_, List.pairwise_cons.2 h⟩
      rcases List.mem_cons.1 hx with rfl | hx
      · exact hlt
      · exact Ascending.Before.trans hlt (h.1 x hx)
    · rename_i heq
      refine List.pairwise_cons.2 ⟨fun x hx => ?_, h.2⟩
      rw [Std.LawfulEqCmp.eq_of_compare heq]
      exact h.1 x hx
    · rename_i hgt
      refine List.pairwise_cons.2 ⟨fun x hx => ?_, ih h.2⟩
      rcases mem_of_mem_insert hx with rfl | hx
      · exact Std.OrientedCmp.lt_of_gt hgt
      · exact h.1 x hx

theorem keysAscend_ofList (pairs : List (κ × ν)) : KeysAscend (ofList pairs) := by
  suffices h : ∀ entries : List (κ × ν), KeysAscend entries →
      KeysAscend (pairs.foldl (fun entries pair => insert pair.1 pair.2 entries) entries) from
    h [] .nil
  induction pairs with
  | nil => exact fun _ h => h
  | cons p ps ih => exact fun entries h => ih _ (keysAscend_insert h)

omit [Std.TransOrd κ] in
theorem lookup_insert_self (key : κ) (value : ν) (entries : List (κ × ν)) :
    lookup key (insert key value entries) = some value := by
  induction entries with
  | nil => simp [insert, lookup, Std.ReflCmp.compare_self]
  | cons e rest ih =>
    simp only [insert]
    split
    · simp [lookup, Std.ReflCmp.compare_self]
    · simp [lookup, Std.ReflCmp.compare_self]
    · rename_i hgt
      simp [lookup, hgt, ih]

theorem lookup_insert_of_ne {key other : κ} (value : ν) {entries : List (κ × ν)}
    (hne : other ≠ key) : lookup other (insert key value entries) = lookup other entries := by
  induction entries with
  | nil =>
    simp only [insert, lookup]
    split
    · rfl
    · rename_i heq
      exact absurd (Std.LawfulEqCmp.eq_of_compare heq) hne
    · rfl
  | cons e rest ih =>
    simp only [insert]
    split
    · rename_i hlt
      simp only [lookup]
      split
      · rename_i hlt'
        rw [Ascending.Before.trans hlt' hlt]
      · rename_i heq
        exact absurd (Std.LawfulEqCmp.eq_of_compare heq) hne
      · rfl
    · rename_i heq
      have hk := Std.LawfulEqCmp.eq_of_compare heq
      simp only [lookup, ← hk]
      split
      · rfl
      · rename_i heq'
        exact absurd (Std.LawfulEqCmp.eq_of_compare heq') hne
      · rfl
    · simp only [lookup]
      split
      · rfl
      · rfl
      · exact ih

theorem lookup_insert [DecidableEq κ] (key other : κ) (value : ν) (entries : List (κ × ν)) :
    lookup other (insert key value entries)
      = if other = key then some value else lookup other entries := by
  split
  · rename_i h
    rw [h, lookup_insert_self]
  · rename_i h
    exact lookup_insert_of_ne value h

end Entries

/-! ## The type of sorted maps -/

/-- A finite map, held as the list of its entries in ascending order of keys. -/
structure SortedMap (κ : Type u) (ν : Type v) [Ord κ] where
  toList : List (κ × ν)
  ascending : Entries.KeysAscend toList

namespace SortedMap

variable {κ : Type u} {ν : Type v} [Ord κ]

instance [DecidableEq κ] [DecidableEq ν] : DecidableEq (SortedMap κ ν) := fun s t =>
  decidable_of_iff (s.toList = t.toList) ⟨fun h => by cases s; cases t; simp_all, fun h => h ▸ rfl⟩

def empty : SortedMap κ ν := ⟨[], .nil⟩

instance : EmptyCollection (SortedMap κ ν) := ⟨empty⟩
instance : Inhabited (SortedMap κ ν) := ⟨empty⟩

@[inline]
def get? (m : SortedMap κ ν) (key : κ) : Option ν := Entries.lookup key m.toList

variable [Std.TransOrd κ] [Std.LawfulEqOrd κ]

def keys (m : SortedMap κ ν) : SortedSet κ :=
  ⟨m.toList.map Prod.fst, List.pairwise_map.2 m.ascending⟩

@[inline]
def insert (key : κ) (value : ν) (m : SortedMap κ ν) : SortedMap κ ν :=
  ⟨Entries.insert key value m.toList, Entries.keysAscend_insert m.ascending⟩

/-- The entries of both maps; where both have a value, that of `t` stays. -/
def override (s t : SortedMap κ ν) : SortedMap κ ν :=
  t.toList.foldl (fun m entry => m.insert entry.1 entry.2) s

theorem get?_insert [DecidableEq κ] (m : SortedMap κ ν) (key other : κ) (value : ν) :
    (m.insert key value).get? other = if other = key then some value else m.get? other :=
  Entries.lookup_insert key other value m.toList

end SortedMap

end JsonAutomata
