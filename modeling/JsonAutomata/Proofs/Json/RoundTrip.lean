import JsonAutomata.Proofs.Json.Decoded
import JsonAutomata.Proofs.Json.DepthLimit
import JsonAutomata.Proofs.Json.Writing

/-!
# Round trip — decoding what was written

A derivation needs as much room for open containers as are nested in the value
(`Derives.nesting_le`).  So a written value decodes to itself if at most 128 containers are nested in
it, and else the first bracket that opens one too many is reported.
-/

namespace JsonAutomata

open Grammar

/-! ## 1. Nesting -/

namespace Value

theorem nestingItems_le_iff {vs : List Value} {n : Nat} :
    nestingItems vs ≤ n ↔ ∀ v ∈ vs, v.nesting ≤ n := by
  induction vs with
  | nil => simp [nestingItems]
  | cons v vs ih => simp [nestingItems, ih]

theorem nestingMembers_le_iff {ms : List (String × Value)} {n : Nat} :
    nestingMembers ms ≤ n ↔ ∀ m ∈ ms, m.2.nesting ≤ n := by
  induction ms with
  | nil => simp [nestingMembers]
  | cons m ms ih => simp [nestingMembers, ih]

end Value

namespace Grammar

def Phrase.nesting : Phrase → Nat
  | .value v => v.nesting
  | .element v => v.nesting
  | .elements vs => Value.nestingItems vs
  | .member _ v => v.nesting
  | .members ms => Value.nestingMembers ms

/-- There is room for all containers that a phrase denotes. -/
theorem Derives.nesting_le {n : Nat} {p : Phrase} {w : List Char} (h : Derives n p w) :
    p.nesting ≤ n := by
  have hall : p.Forall fun v => v.nesting ≤ n := by
    refine h.forall_of (P := fun n v => v.nesting ≤ n) ?null ?boolean ?number ?string ?array ?object
    case null => exact fun n => Nat.zero_le n
    case boolean => exact fun n _ => Nat.zero_le n
    case number => exact fun n _ _ => Nat.zero_le n
    case string => exact fun n _ => Nat.zero_le n
    case array => exact fun n items ih => Nat.succ_le_succ (Value.nestingItems_le_iff.2 ih)
    case object => exact fun n ms _ ih => Nat.succ_le_succ (Value.nestingMembers_le_iff.2 ih)
  cases p with
  | value v => exact hall
  | element v => exact hall
  | elements vs => exact Value.nestingItems_le_iff.2 hall
  | member k v => exact hall
  | members ms => exact Value.nestingMembers_le_iff.2 hall

end Grammar

/-! ## 2. Written values -/

variable {v : Value}

/-- In every layout a value decodes to itself, or to the error for the first bracket in excess. -/
theorem decode_write (layout : Layout) (hsorted : v.Sorted) (hgrammatical : v.Grammatical) :
    (v.nesting ≤ 128 → decode (v.write layout) = .ok v) ∧
      (128 < v.nesting → ∃ offset, firstExcess 128 .outside 0 0 (v.write layout) = some offset ∧
        decode (v.write layout) = .error (.depthLimit offset)) := by
  have hvalue := v.derives_write layout hsorted hgrammatical
  have helement : Derives v.nesting (.element v) (v.write layout) :=
    Value.derives_element hvalue blank_nil
  constructor
  · exact fun hle => decodeWithin_eq_ok_iff_derives.2 (helement.mono hle)
  · intro hlt
    have hdecode : decode (v.write layout) = _ := decodeWithin_of_derives (L := 128) helement
    cases hexcess : firstExcess 128 .outside 0 0 (v.write layout) with
    | none =>
      rw [hexcess] at hdecode
      -- Accepted under the limit, the text would have room for all containers of the value.
      have hle : v.nesting ≤ 128 := (decodeWithin_eq_ok_iff_derives.1 hdecode).nesting_le
      omega
    | some offset =>
      rw [hexcess] at hdecode
      exact ⟨offset, rfl, hdecode⟩

/-- Both encodings of a value decode to the value, numbers as they were written, if at most 128
containers are nested in it.  If more are, both fail at the first bracket that is opened while 128
are open. -/
theorem decode_encode (v : Value) (hsorted : v.Sorted) (hgrammatical : v.Grammatical) :
    ∀ text ∈ [v.encode.toList, v.encodePretty.toList],
      (v.nesting ≤ 128 → decode text = .ok v) ∧
        (128 < v.nesting → ∃ offset, firstExcess 128 .outside 0 0 text = some offset ∧
          decode text = .error (.depthLimit offset)) := by
  have hencode : v.encode.toList = v.write .compact := String.toList_ofList
  have hpretty : v.encodePretty.toList = v.write (.indented 0) := String.toList_ofList
  intro text htext
  rw [hencode, hpretty] at htext
  rcases List.mem_cons.1 htext with rfl | htext
  · exact decode_write .compact hsorted hgrammatical
  · obtain rfl := List.mem_singleton.1 htext
    exact decode_write (.indented 0) hsorted hgrammatical

/-- An object with a number whose text is kept and a key that is escaped, and 129 nested arrays. -/
theorem decode_encode_object :
    let shallow : Value := .object [("a\n", .array [.number ⟨"-1.50E+02"⟩, .null]), ("😀", .object [])]
    let deep : Value := (fun v => Value.array [v])^[128] (.array [])
    decode shallow.encodePretty.toList = .ok shallow ∧ deep.nesting = 129 ∧
      ∃ offset, firstExcess 128 .outside 0 0 deep.encode.toList = some offset ∧
        decode deep.encode.toList = .error (.depthLimit offset) := by
  intro shallow deep
  have hnumber : NumberText "-1.50E+02".toList :=
    ⟨['-'], ['1'], ".50".toList, "E+02".toList, rfl, .inr rfl,
      .inr ⟨'1', [], rfl, by decide, by decide, by simp [IsDigit]⟩,
      .inr ⟨"50".toList, rfl, by decide, by simp [IsDigit]⟩,
      .inr ⟨'E', ['+'], "02".toList, rfl, .inr rfl, .inr (.inl rfl), by decide, by simp [IsDigit]⟩⟩
  have hkeys : Ascending.Before "a\n" "😀" := by decide
  have hsorted : shallow.Sorted := by
    have hmembers : Entries.KeysAscend
        [("a\n", Value.array [.number ⟨"-1.50E+02"⟩, .null]), ("😀", .object [])] :=
      List.pairwise_pair.2 hkeys
    exact ⟨hmembers, ⟨trivial, trivial, trivial⟩, ⟨.nil, trivial⟩, trivial⟩
  have hgrammatical : shallow.Grammatical := by
    simpa [shallow, Value.Grammatical, Value.GrammaticalItems, Value.GrammaticalMembers] using hnumber
  have hdeep : ∀ n, ((fun v => Value.array [v])^[n] (.array [])).nesting = n + 1 ∧
      ((fun v => Value.array [v])^[n] (.array [])).Sorted ∧
      ((fun v => Value.array [v])^[n] (.array [])).Grammatical := by
    intro n
    induction n with
    | zero => exact ⟨rfl, trivial, trivial⟩
    | succ n ih =>
      rw [Function.iterate_succ_apply']
      obtain ⟨hnesting, hsorted, hgrammatical⟩ := ih
      exact ⟨by simp [Value.nesting, Value.nestingItems, hnesting], ⟨hsorted, trivial⟩,
        ⟨hgrammatical, trivial⟩⟩
  obtain ⟨hnesting, hdeepSorted, hdeepGrammatical⟩ := hdeep 128
  refine ⟨?_, hnesting, ?_⟩
  · exact (decode_encode shallow hsorted hgrammatical _ (by simp)).1
      (by simp [shallow, Value.nesting, Value.nestingItems, Value.nestingMembers])
  · exact (decode_encode deep hdeepSorted hdeepGrammatical _ (by simp)).2
      (hnesting.symm ▸ (by decide : 128 < 128 + 1))

end JsonAutomata
