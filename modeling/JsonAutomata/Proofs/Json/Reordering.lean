import JsonAutomata.Json.ToValue
import JsonAutomata.Proofs.Json.Decoding
import JsonAutomata.Proofs.Json.Writing
import JsonAutomata.Proofs.Sorted.Lookup
import Mathlib.Data.List.Perm.Basic
import Mathlib.Data.String.Basic

/-!
# Reordering — members in any order

The members of an object with distinct keys may be given in any order.  Entries in any order are
written as the sorted map of these entries is (`Value.ofEntries_eq_toValue`).  `Reordered` says that
one text arises from another when members of its objects change places, objects within objects
included; it keeps what the text denotes (`Reordered.derives`).
-/

namespace JsonAutomata

open Grammar

universe u v

/-! ## 1. Maps as values -/

section Maps

variable {α : Type u} {β : Type v} [ToValue α] [ToValue β]

/-- The lists hold the same entries, in any order.  Their values have the same JSON form, so they
may be maps themselves whose entries are in another order. -/
def SameEntries (as : List (String × α)) (bs : List (String × β)) : Prop :=
  (as.map fun e => (e.1, toValue e.2)).Perm (bs.map fun e => (e.1, toValue e.2))

theorem SameEntries.of_perm {as bs : List (String × α)} (h : as.Perm bs) : SameEntries as bs :=
  h.map _

namespace Value

theorem ofMembers_eq_of_perm {ms others : List (String × Value)} (h : ms.Perm others)
    (hkeys : (ms.map Prod.fst).Nodup) : ofMembers ms = ofMembers others := by
  rw [ofMembers, ofMembers, Entries.ofList_eq_of_perm h hkeys]

/-- The members of a sorted map are in order already. -/
theorem toValue_sortedMap (m : SortedMap String α) :
    toValue m = .object (m.toList.map fun e => (e.1, toValue e.2)) := by
  have hascend : Entries.KeysAscend (m.toList.map fun e => (e.1, toValue e.2)) :=
    List.pairwise_map.2 m.ascending
  show Value.object (Entries.ofList (m.toList.map fun e => (e.1, toValue e.2))) = _
  rw [Entries.ofList_of_keysAscend hascend]

/-- A list of entries, in any order, is the object that the sorted map of these entries is. -/
theorem ofEntries_eq_toValue (m : SortedMap String α) {order : List (String × β)}
    (h : SameEntries order m.toList) : ofEntries order = toValue m := by
  refine ofMembers_eq_of_perm h ?_
  rw [(h.map Prod.fst).nodup_iff, List.map_map]
  exact Entries.nodup_keys m.ascending

theorem toList_encode_sortedMap (m : SortedMap String α) :
    (toValue m).encode.toList = Layout.compact.enclose '\x7b' '\x7d'
      (m.toList.map fun e => Quote.quoted e.1.toList ++ ':' :: ' ' :: (toValue e.2).write .compact) := by
  rw [encode, String.toList_ofList, toValue_sortedMap, write, writeMembers_eq_map, List.map_map]
  rfl

end Value

end Maps

theorem keys_lt_of_keysAscend {α : Type u} {entries : List (String × α)}
    (h : Entries.KeysAscend entries) : (entries.map fun e => e.1.toList).Pairwise (· < ·) := by
  refine List.pairwise_map.2 (h.imp fun {e f} hef => ?_)
  exact String.lt_iff_toList_lt.1 (compare_lt_iff_lt.1 hef)

/-- Entries with distinct keys are the entries of a sorted map. -/
theorem exists_sortedMap {α : Type u} {entries : List (String × α)}
    (h : (entries.map Prod.fst).Nodup) : ∃ m : SortedMap String α, entries.Perm m.toList :=
  ⟨⟨Entries.ofList entries, Entries.keysAscend_ofList entries⟩, (Entries.perm_ofList h).symm⟩

/-! ## 2. Texts of members -/

namespace Grammar

def Padded (core w : List Char) : Prop := ∃ a b, Blank a ∧ Blank b ∧ w = a ++ (core ++ b)

def braced (members : List (List Char)) : List Char :=
  '\x7b' :: ([','].intercalate members ++ ['\x7d'])

theorem Derives.prepend_blank {n : Nat} {k : String} {v : Value} {a w : List Char}
    (h : Derives n (.member k v) w) (ha : Blank a) : Derives n (.member k v) (a ++ w) := by
  cases h with
  | member hb hx hc inner =>
    rw [← List.append_assoc]
    exact .member (ha.append hb) hx hc inner

theorem Derives.padded {n : Nat} {k : String} {v : Value} {core w : List Char}
    (h : Derives n (.member k v) core) (hw : Padded core w) : Derives n (.member k v) w := by
  obtain ⟨a, b, ha, hb, rfl⟩ := hw
  exact (h.append_blank nofun hb).prepend_blank ha

theorem derives_braced {n : Nat} {ms entries : List (String × Value)} {ws : List (List Char)}
    (hmembers : List.Forall₂ (fun m w => Derives n (.member m.1 m.2) w) ms ws)
    (hentries : Latest ms entries) : Derives (n + 1) (.value (.object entries)) (braced ws) := by
  by_cases hne : ms = []
  · subst hne
    cases hmembers
    obtain rfl := latest_iff.1 hentries
    exact .emptyObject blank_nil
  · refine .object (derives_intercalate .firstMember .nextMember blank_nil blank_nil hne ?_) hentries
    exact hmembers.imp fun m w hw _ => hw.prepend_blank

theorem latest_of_perm {ms others entries : List (String × Value)} (hperm : ms.Perm others)
    (hkeys : (ms.map Prod.fst).Nodup) (h : Latest ms entries) : Latest others entries := by
  rw [latest_iff, ← Entries.ofList_eq_of_perm hperm hkeys]
  exact latest_iff.1 h

/-! ## 3. Reordered texts -/

/-- The second text arises from the first, which is the phrase, when members of its objects change
places.  In each such object no two keys are equal, as the strings that they denote.  White space
around members may stay where it is or go along with them. -/
inductive Reordered : Nat → Phrase → List Char → List Char → Prop
  | same {n : Nat} {p : Phrase} {w : List Char} (h : Derives n p w) : Reordered n p w w
  | trans {n : Nat} {p : Phrase} {u w x : List Char} (huw : Reordered n p u w)
      (hwx : Reordered n p w x) : Reordered n p u x
  | permuted {n : Nat} {ms entries : List (String × Value)} {cores others us ws : List (List Char)}
      (hcores : List.Forall₂ (fun m core => Derives n (.member m.1 m.2) core) ms cores)
      (hkeys : (ms.map Prod.fst).Nodup) (hentries : Latest ms entries) (hperm : cores.Perm others)
      (hus : List.Forall₂ Padded cores us) (hws : List.Forall₂ Padded others ws) :
      Reordered (n + 1) (.value (.object entries)) (braced us) (braced ws)
  | array {n : Nat} {vs : List Value} {u w : List Char} (inner : Reordered n (.elements vs) u w) :
      Reordered (n + 1) (.value (.array vs)) ('[' :: (u ++ [']'])) ('[' :: (w ++ [']']))
  | object {n : Nat} {ms entries : List (String × Value)} {u w : List Char}
      (inner : Reordered n (.members ms) u w) (hentries : Latest ms entries) :
      Reordered (n + 1) (.value (.object entries)) ('\x7b' :: (u ++ ['\x7d']))
        ('\x7b' :: (w ++ ['\x7d']))
  | element {n : Nat} {v : Value} {a u w b : List Char} (ha : Blank a)
      (inner : Reordered n (.value v) u w) (hb : Blank b) :
      Reordered n (.element v) (a ++ (u ++ b)) (a ++ (w ++ b))
  | firstElement {n : Nat} {v : Value} {u w : List Char} (inner : Reordered n (.element v) u w) :
      Reordered n (.elements [v]) u w
  | nextElement {n : Nat} {vs : List Value} {v : Value} {u w u' w' : List Char}
      (before : Reordered n (.elements vs) u w) (inner : Reordered n (.element v) u' w') :
      Reordered n (.elements (vs ++ [v])) (u ++ ',' :: u') (w ++ ',' :: w')
  | member {n : Nat} {k : String} {v : Value} {a x b u w : List Char} (ha : Blank a)
      (hx : StringText x k) (hb : Blank b) (inner : Reordered n (.element v) u w) :
      Reordered n (.member k v) (a ++ (x ++ (b ++ ':' :: u))) (a ++ (x ++ (b ++ ':' :: w)))
  | firstMember {n : Nat} {k : String} {v : Value} {u w : List Char}
      (inner : Reordered n (.member k v) u w) : Reordered n (.members [(k, v)]) u w
  | nextMember {n : Nat} {ms : List (String × Value)} {k : String} {v : Value}
      {u w u' w' : List Char} (before : Reordered n (.members ms) u w)
      (inner : Reordered n (.member k v) u' w') :
      Reordered n (.members (ms ++ [(k, v)])) (u ++ ',' :: u') (w ++ ',' :: w')

/-- Members that change places leave what the object denotes. -/
theorem derives_permuted {n : Nat} {ms entries : List (String × Value)}
    {cores others ws : List (List Char)}
    (hcores : List.Forall₂ (fun m core => Derives n (.member m.1 m.2) core) ms cores)
    (hkeys : (ms.map Prod.fst).Nodup) (hentries : Latest ms entries) (hperm : cores.Perm others)
    (hws : List.Forall₂ Padded others ws) :
    Derives (n + 1) (.value (.object entries)) (braced ws) := by
  -- The members change places along with their texts.
  obtain ⟨ms', hothers, hms⟩ := List.perm_comp_forall₂ hperm.symm hcores.flip
  have hmembers : List.Forall₂ (fun m w => Derives n (.member m.1 m.2) w) ms' ws :=
    forall₂_trans_of_mem hothers.flip hws fun _ _ _ _ hcore hw => hcore.padded hw
  exact derives_braced hmembers (latest_of_perm hms.symm hkeys hentries)

/-- Reordered texts denote the same. -/
theorem Reordered.derives {n : Nat} {p : Phrase} {u w : List Char} (h : Reordered n p u w) :
    Derives n p u ∧ Derives n p w := by
  induction h with
  | same h => exact ⟨h, h⟩
  | trans _ _ ihu ihw => exact ⟨ihu.1, ihw.2⟩
  | permuted hcores hkeys hentries hperm hus hws =>
    exact ⟨derives_permuted hcores hkeys hentries (.refl _) hus,
      derives_permuted hcores hkeys hentries hperm hws⟩
  | array _ ih => exact ⟨.array ih.1, .array ih.2⟩
  | object _ hentries ih => exact ⟨.object ih.1 hentries, .object ih.2 hentries⟩
  | element ha _ hb ih => exact ⟨.element ha ih.1 hb, .element ha ih.2 hb⟩
  | firstElement _ ih => exact ⟨.firstElement ih.1, .firstElement ih.2⟩
  | nextElement _ _ ihu ihw => exact ⟨.nextElement ihu.1 ihw.1, .nextElement ihu.2 ihw.2⟩
  | member ha hx hb _ ih => exact ⟨.member ha hx hb ih.1, .member ha hx hb ih.2⟩
  | firstMember _ ih => exact ⟨.firstMember ih.1, .firstMember ih.2⟩
  | nextMember _ _ ihu ihw => exact ⟨.nextMember ihu.1 ihw.1, .nextMember ihu.2 ihw.2⟩

end Grammar

/-! ## 4. The main result -/

/-- The order of members plays no part.  A sorted map is written with its keys ascending by code
points, as they are before they are escaped, and entries in any order are written as the sorted map
of these entries is; there is one for all entries with distinct keys.  A text that arises from a
document when members change places, in any of its objects with distinct keys, decodes to the same
value. -/
theorem member_order_immaterial {α : Type u} [ToValue α] :
    (∀ m : SortedMap String α,
      (m.toList.map fun e => e.1.toList).Pairwise (· < ·) ∧
      (toValue m).encode.toList = Layout.compact.enclose '\x7b' '\x7d' (m.toList.map fun e =>
        Quote.quoted e.1.toList ++ ':' :: ' ' :: (toValue e.2).write .compact) ∧
      ∀ {β : Type u} [ToValue β] (order : List (String × β)), SameEntries order m.toList →
        (Value.ofEntries order).encode = (toValue m).encode) ∧
    (∀ entries : List (String × α), (entries.map Prod.fst).Nodup →
      ∃ m : SortedMap String α, entries.Perm m.toList) ∧
    ∀ text reordered v w, decode text = .ok v →
      Reordered maxDepth (.element w) text reordered → decode reordered = .ok v := by
  refine ⟨fun m => ⟨keys_lt_of_keysAscend m.ascending, Value.toList_encode_sortedMap m, ?_⟩,
    fun _ => exists_sortedMap, ?_⟩
  · intro β _ order h
    rw [Value.ofEntries_eq_toValue m h]
  · intro text reordered v w hv h
    rw [← hv]
    exact (decodeWithin_eq_ok_iff_derives.2 h.derives.2).trans
      (decodeWithin_eq_ok_iff_derives.2 h.derives.1).symm

/-- A map of two entries in both orders, and an object within an array whose members change places,
one of them with an escaped key. -/
theorem member_order_immaterial_pair :
    let m : SortedMap String ℤ := ⟨[("a", 2), ("b", 1)], List.pairwise_pair.2 (by decide)⟩
    let v : Value := .array [.object [("a", .null), ("b", .boolean true)]]
    (Value.ofEntries [("b", (1 : ℤ)), ("a", 2)]).encode = (toValue m).encode ∧
      decode "[\x7b\"b\":true, \"\\u0061\":null\x7d]".toList = .ok v ∧
      decode "[\x7b\"\\u0061\":null,\"b\":true \x7d]".toList = .ok v := by
  intro m v
  have hspace : Blank [' '] := by simp [Blank, IsBlank]
  have hb : Derives 126 (.member "b" (.boolean true)) "\"b\":true".toList := by
    have hkey : StringText "\"b\"".toList "b" :=
      ⟨['b'], ['b'], by decide, .plain (by simp [IsPlain]) .nil, by decide⟩
    have hmember := Derives.member blank_nil hkey blank_nil
      (Value.derives_element (.true (n := 126)) blank_nil)
    have htext : "\"b\":true".toList
        = [] ++ ("\"b\"".toList ++ ([] ++ ':' :: ([] ++ "true".toList))) := by
      decide
    rwa [htext]
  have ha : Derives 126 (.member "a" .null) "\"\\u0061\":null".toList := by
    have hkey : StringText "\"\\u0061\"".toList "a" := by
      have hunit : HexUnit (hex4 97) 97 := hexUnit_hex4 (by decide)
      exact ⟨'\\' :: 'u' :: (hex4 97 ++ []), ['a'], by decide,
        .unit hunit (by simp [HighSurrogate]) (by simp [LowSurrogate]) .nil, by decide⟩
    have hmember := Derives.member blank_nil hkey blank_nil
      (Value.derives_element (.null (n := 126)) blank_nil)
    have htext : "\"\\u0061\":null".toList
        = [] ++ ("\"\\u0061\"".toList ++ ([] ++ ':' :: ([] ++ "null".toList))) := by
      decide
    rwa [htext]
  have hentries : Latest [("b", .boolean true), ("a", .null)] [("a", .null), ("b", .boolean true)] :=
    latest_iff.2 rfl
  have hplain : ∀ core, Padded core core := fun core => ⟨[], [], blank_nil, blank_nil, by simp⟩
  have hobject := Reordered.permuted (.cons hb (.cons ha .nil)) (by decide) hentries (.swap _ _ [])
    (.cons (hplain _) (.cons ⟨[' '], [], hspace, blank_nil, rfl⟩ .nil))
    (.cons (hplain _) (.cons ⟨[], [' '], blank_nil, hspace, rfl⟩ .nil))
  have harray := Reordered.element blank_nil
    (.array (.firstElement (.element blank_nil hobject blank_nil))) blank_nil
  have hfirst := decodeWithin_eq_ok_iff_derives.2 harray.derives.1
  obtain ⟨hmaps, -, htexts⟩ := member_order_immaterial (α := ℤ)
  exact ⟨(hmaps m).2.2 _ (.of_perm (.swap _ _ [])), hfirst, htexts _ _ v _ hfirst harray⟩

end JsonAutomata
