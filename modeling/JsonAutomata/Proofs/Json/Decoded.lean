import JsonAutomata.Proofs.Json.Decoding
import JsonAutomata.Proofs.Json.Values

/-!
# Decoded values — induction over what decoding gives

A property of all values that a derivation denotes follows from what the derivation says about each
of them (`Derives.forall_of`).  So it is with the values that decoding can give: numbers are written
as the grammar has them, and the members of an object are in ascending order of their keys
(`decode_induction`).
-/

namespace JsonAutomata

open Grammar

namespace Grammar

def Phrase.Forall (P : Value → Prop) : Phrase → Prop
  | .value v => P v
  | .element v => P v
  | .elements vs => ∀ v ∈ vs, P v
  | .member _ v => P v
  | .members ms => ∀ m ∈ ms, P m.2

/-- What holds of a value, given the room for open containers, from what holds of the values in it. -/
theorem Derives.forall_of {P : Nat → Value → Prop} {n : Nat} {p : Phrase} {w : List Char}
    (h : Derives n p w) (null : ∀ n, P n .null) (boolean : ∀ n b, P n (.boolean b))
    (number : ∀ n (m : Number), NumberText m.lexeme.toList → P n (.number m))
    (string : ∀ n s, P n (.string s))
    (array : ∀ n items, (∀ v ∈ items, P n v) → P (n + 1) (.array items))
    (object : ∀ n members, Entries.KeysAscend members → (∀ m ∈ members, P n m.2) →
      P (n + 1) (.object members)) : p.Forall (P n) := by
  induction h with
  | null => exact null _
  | true => exact boolean _ _
  | false => exact boolean _ _
  | number hw =>
    apply number
    rwa [String.toList_ofList]
  | string _ => exact string _ _
  | emptyArray _ => exact array _ [] nofun
  | array _ ih => exact array _ _ ih
  | emptyObject _ => exact object _ [] .nil nofun
  | object _ hentries ih =>
    refine object _ _ hentries.1 ?_
    -- Each entry is one of the members.
    rintro ⟨k, v⟩ hentry
    obtain ⟨before, after, rfl, -⟩ := (hentries.2 k v).1 hentry
    exact ih (k, v) (by simp)
  | element _ _ _ ih => exact ih
  | firstElement _ ih =>
    intro v hv
    rw [List.mem_singleton.1 hv]
    exact ih
  | nextElement _ _ ihu ihw =>
    intro v hv
    rcases List.mem_append.1 hv with hv | hv
    · exact ihu v hv
    · rw [List.mem_singleton.1 hv]
      exact ihw
  | member _ _ _ _ ih => exact ih
  | firstMember _ ih =>
    intro m hm
    rw [List.mem_singleton.1 hm]
    exact ih
  | nextMember _ _ ihu ihw =>
    intro m hm
    rcases List.mem_append.1 hm with hm | hm
    · exact ihu m hm
    · rw [List.mem_singleton.1 hm]
      exact ihw

end Grammar

variable {text : List Char} {v : Value}

@[elab_as_elim]
theorem decode_induction {motive : Value → Prop} (null : motive .null)
    (boolean : ∀ b, motive (.boolean b))
    (number : ∀ n : Number, NumberText n.lexeme.toList → motive (.number n))
    (string : ∀ s, motive (.string s))
    (array : ∀ items, (∀ v ∈ items, motive v) → motive (.array items))
    (object : ∀ members, Entries.KeysAscend members → (∀ m ∈ members, motive m.2) →
      motive (.object members)) (h : decode text = .ok v) : motive v :=
  Derives.forall_of (decodeWithin_eq_ok_iff_derives.1 h) (fun _ => null) (fun _ => boolean)
    (fun _ => number) (fun _ => string) (fun _ => array) (fun _ => object)

theorem numberText_of_decode (h : decode text = .ok v) :
    ∀ n ∈ v.numbers, NumberText n.lexeme.toList := by
  refine decode_induction ?null ?boolean ?number ?string ?array ?object h
  case null => exact fun n hn => absurd hn List.not_mem_nil
  case boolean => exact fun b n hn => absurd hn List.not_mem_nil
  case string => exact fun s n hn => absurd hn List.not_mem_nil
  case number =>
    intro m hm n hn
    rw [List.mem_singleton.1 hn]
    exact hm
  case array =>
    intro items ih n hn
    obtain ⟨v, hv, hn⟩ := Value.mem_numbersItems.1 hn
    exact ih v hv n hn
  case object =>
    intro members _ ih n hn
    obtain ⟨m, hm, hn⟩ := Value.mem_numbersMembers.1 hn
    exact ih m hm n hn

end JsonAutomata
