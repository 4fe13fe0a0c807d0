import JsonAutomata.Sorted.Map
import Mathlib.Data.List.Perm.Basic
import Mathlib.Data.List.Nodup

/-!
# Look-ups in sorted entries

In a list of entries with ascending keys a look-up is membership (`lookup_eq_some_iff`), so such a
list is determined by its entries and by its look-ups (`eq_of_mem_iff`, `eq_of_lookup_eq`).  The
look-ups of an override and of a list of insertions follow.  Pairs with distinct keys may be entered
in any order (`ofList_eq_of_perm`).
-/

namespace JsonAutomata

universe u v

namespace Entries

variable {κ : Type u} {ν : Type v} [Ord κ] [Std.TransOrd κ] [Std.LawfulEqOrd κ]

/-! ## 1. Look-up as membership -/

theorem lookup_eq_some_iff {key : κ} {value : ν} {entries : List (κ × ν)}
    (h : KeysAscend entries) : lookup key entries = some value ↔ (key, value) ∈ entries := by
  induction entries with
  | nil => simp [lookup]
  | cons e rest ih =>
    obtain ⟨k, v⟩ := e
    rw [KeysAscend, List.pairwise_cons] at h
    simp only [lookup, List.mem_cons, Prod.mk.injEq]
    split
    · rename_i hlt
      -- The key lies before all keys of the list, so it is none of them.
      constructor
      · intro hnone
        cases hnone
      · rintro (⟨rfl, -⟩ | hmem)
        · exact absurd hlt (Ascending.Before.irrefl _)
        · exact absurd (Ascending.Before.trans hlt (h.1 _ hmem)) (Ascending.Before.irrefl _)
    · rename_i heq
      obtain rfl := Std.LawfulEqCmp.eq_of_compare heq
      constructor
      · intro hv
        exact .inl ⟨rfl, (Option.some.inj hv).symm⟩
      · rintro (⟨-, rfl⟩ | hmem)
        · rfl
        · exact absurd (h.1 _ hmem) (Ascending.Before.irrefl _)
    · rename_i hgt
      rw [ih h.2]
      refine ⟨.inr, fun hmem => hmem.resolve_left ?_⟩
      rintro ⟨rfl, -⟩
      simp [Std.ReflCmp.compare_self] at hgt

omit [Std.TransOrd κ] in
theorem nodup_keys {entries : List (κ × ν)} (h : KeysAscend entries) :
    (entries.map Prod.fst).Nodup := by
  refine List.pairwise_map.2 (h.imp fun {a b} hab heq => ?_)
  rw [heq] at hab
  exact Ascending.Before.irrefl _ hab

/-- Two lists with ascending keys and the same entries are the same list. -/
theorem eq_of_mem_iff {as bs : List (κ × ν)} (ha : KeysAscend as) (hb : KeysAscend bs)
    (h : ∀ e, e ∈ as ↔ e ∈ bs) : as = bs := by
  have hperm : as.Perm bs :=
    (List.perm_ext_iff_of_nodup (nodup_keys ha).of_map (nodup_keys hb).of_map).2 h
  refine hperm.eq_of_pairwise (fun a b _ _ hab hba => ?_) ha hb
  exact absurd (Ascending.Before.trans hab hba) (Ascending.Before.irrefl _)

/-- Two lists with ascending keys and the same look-ups are the same list. -/
theorem eq_of_lookup_eq {as bs : List (κ × ν)} (ha : KeysAscend as) (hb : KeysAscend bs)
    (h : ∀ key, lookup key as = lookup key bs) : as = bs := by
  apply eq_of_mem_iff ha hb
  rintro ⟨k, v⟩
  rw [← lookup_eq_some_iff ha, ← lookup_eq_some_iff hb, h k]

/-! ## 2. Many insertions -/

omit [Std.TransOrd κ] [Std.LawfulEqOrd κ] in
theorem ofList_append_singleton (pairs : List (κ × ν)) (key : κ) (value : ν) :
    ofList (pairs ++ [(key, value)]) = insert key value (ofList pairs) := by
  rw [ofList, ofList, List.foldl_append]
  rfl

/-- Of the pairs that are entered for a key, the last one is found. -/
theorem lookup_foldl_insert [DecidableEq κ] (key : κ) (pairs entries : List (κ × ν)) :
    lookup key (pairs.foldl (fun entries pair => insert pair.1 pair.2 entries) entries)
      = ((pairs.reverse.find? fun pair => pair.1 = key).map Prod.snd).or (lookup key entries) := by
  induction pairs generalizing entries with
  | nil => rfl
  | cons p ps ih =>
    rw [List.foldl_cons, ih, lookup_insert, List.reverse_cons, List.find?_append]
    cases (ps.reverse.find? fun pair => pair.1 = key) with
    | some q => rfl
    | none =>
      by_cases hk : p.1 = key
      · simp [hk]
      · simp [hk, Ne.symm hk]

theorem lookup_ofList [DecidableEq κ] (key : κ) (pairs : List (κ × ν)) :
    lookup key (ofList pairs) = (pairs.reverse.find? fun pair => pair.1 = key).map Prod.snd := by
  rw [ofList, lookup_foldl_insert]
  simp [lookup]

/-- Pairs with distinct keys are all kept. -/
theorem mem_ofList_iff [DecidableEq κ] {pairs : List (κ × ν)} (h : (pairs.map Prod.fst).Nodup)
    {e : κ × ν} : e ∈ ofList pairs ↔ e ∈ pairs := by
  obtain ⟨k, v⟩ := e
  rw [← lookup_eq_some_iff (keysAscend_ofList pairs), lookup_ofList, Option.map_eq_some_iff]
  constructor
  · rintro ⟨⟨l, v⟩, hfind, rfl⟩
    have hl : l = k := by simpa using List.find?_some hfind
    exact hl ▸ List.mem_reverse.1 (List.mem_of_find?_eq_some hfind)
  · intro hmem
    have hfound : ∃ a ∈ pairs.reverse, decide (a.1 = k) = true :=
      ⟨(k, v), List.mem_reverse.2 hmem, decide_eq_true rfl⟩
    obtain ⟨e, he⟩ := Option.isSome_iff_exists.1 (List.find?_isSome.2 hfound)
    have hk : e.1 = k := by simpa using List.find?_some he
    have hsame : e = (k, v) := List.inj_on_of_nodup_map h
      (List.mem_reverse.1 (List.mem_of_find?_eq_some he)) hmem hk
    exact ⟨e, he, congrArg Prod.snd hsame⟩

theorem perm_ofList [DecidableEq κ] {pairs : List (κ × ν)} (h : (pairs.map Prod.fst).Nodup) :
    (ofList pairs).Perm pairs :=
  (List.perm_ext_iff_of_nodup (nodup_keys (keysAscend_ofList pairs)).of_map h.of_map).2
    fun _ => mem_ofList_iff h

/-- The order in which pairs with distinct keys are entered does not matter. -/
theorem ofList_eq_of_perm [DecidableEq κ] {as bs : List (κ × ν)} (hperm : as.Perm bs)
    (h : (as.map Prod.fst).Nodup) : ofList as = ofList bs := by
  apply eq_of_mem_iff (keysAscend_ofList as) (keysAscend_ofList bs)
  intro e
  rw [mem_ofList_iff h, mem_ofList_iff ((hperm.map Prod.fst).nodup_iff.1 h), hperm.mem_iff]

/-- Entering sorted entries one by one gives them back. -/
theorem ofList_of_keysAscend [DecidableEq κ] {entries : List (κ × ν)} (h : KeysAscend entries) :
    ofList entries = entries :=
  eq_of_mem_iff (keysAscend_ofList entries) h fun _ => mem_ofList_iff (nodup_keys h)

end Entries

namespace SortedMap

variable {κ : Type u} {ν : Type v} [Ord κ] [Std.TransOrd κ] [Std.LawfulEqOrd κ]

theorem get?_override [DecidableEq κ] (s t : SortedMap κ ν) (key : κ) :
    (s.override t).get? key = (t.get? key).or (s.get? key) := by
  have hfold : ∀ (pairs : List (κ × ν)) (m : SortedMap κ ν),
      (pairs.foldl (fun m entry => m.insert entry.1 entry.2) m).toList
        = pairs.foldl (fun entries pair => Entries.insert pair.1 pair.2 entries) m.toList := by
    intro pairs
    induction pairs with
    | nil => exact fun _ => rfl
    | cons p ps ih => exact fun m => ih (m.insert p.1 p.2)
  have hlast := Entries.lookup_ofList key t.toList
  rw [Entries.ofList_of_keysAscend t.ascending] at hlast
  rw [override, get?, hfold, Entries.lookup_foldl_insert, ← hlast]
  rfl

end SortedMap

end JsonAutomata
