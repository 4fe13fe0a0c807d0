import JsonAutomata.Json.Layout
import Mathlib.Data.List.Forall2

/-!
# Values — induction over documents

The items of an array and the members of an object are lists of values.  `Value.induction` is
induction over such trees, with the hypothesis for every value in a list, and the functions that go
through the lists of a value are given as maps and joins of lists, so that proofs by this induction
need no second induction over the lists.  `List.Forall₂` relates two such lists one by one.
-/

namespace JsonAutomata

/-! ## Lists that are related one by one -/

section Related

variable {α β γ : Type} {r : α → β → Prop} {as : List α} {bs : List β}

theorem forall₂_symm_of_mem {s : β → α → Prop} (h : List.Forall₂ r as bs)
    (hsymm : ∀ a ∈ as, ∀ b, r a b → s b a) : List.Forall₂ s bs as := by
  induction h with
  | nil => exact .nil
  | cons hab _ ih =>
    rw [List.forall_mem_cons] at hsymm
    exact .cons (hsymm.1 _ hab) (ih hsymm.2)

theorem forall₂_trans_of_mem {s : β → γ → Prop} {t : α → γ → Prop} {cs : List γ}
    (hab : List.Forall₂ r as bs) (hbc : List.Forall₂ s bs cs)
    (htrans : ∀ a ∈ as, ∀ b c, r a b → s b c → t a c) : List.Forall₂ t as cs := by
  induction hab generalizing cs with
  | nil =>
    cases hbc
    exact .nil
  | cons hab _ ih =>
    cases hbc with
    | cons hbc hrest =>
      rw [List.forall_mem_cons] at htrans
      exact .cons (htrans.1 _ _ hab hbc) (ih hrest htrans.2)

end Related

/-! ## Texts of containers -/

theorem intercalate_eq_flatMap (sep w : List Char) (ws : List (List Char)) :
    sep.intercalate (w :: ws) = w ++ ws.flatMap fun u => sep ++ u := by
  induction ws generalizing w with
  | nil => simp
  | cons u ws ih => rw [List.intercalate_cons_cons, ih, List.flatMap_cons, List.append_assoc,
      List.append_assoc]

theorem Layout.enclose_cons (layout : Layout) (opening closing : Char) (w : List Char)
    (ws : List (List Char)) :
    layout.enclose opening closing (w :: ws)
      = opening :: (layout.before ++ (w ++ ((ws.flatMap fun u => layout.between ++ u)
        ++ (layout.after ++ [closing])))) := by
  show opening :: layout.before ++ layout.between.intercalate (w :: ws) ++ layout.after ++ [closing]
    = _
  rw [intercalate_eq_flatMap]
  simp only [List.cons_append, List.append_assoc]

namespace Value

/-- A property of all values, from the properties of the values that they hold. -/
@[elab_as_elim]
theorem induction {motive : Value → Prop} (null : motive .null)
    (boolean : ∀ b, motive (.boolean b)) (number : ∀ n, motive (.number n))
    (string : ∀ s, motive (.string s))
    (array : ∀ items, (∀ v ∈ items, motive v) → motive (.array items))
    (object : ∀ members, (∀ m ∈ members, motive m.2) → motive (.object members)) (v : Value) :
    motive v :=
  match v with
  | .null => null
  | .boolean b => boolean b
  | .number n => number n
  | .string s => string s
  | .array items => array items fun v _ => induction null boolean number string array object v
  | .object members =>
    object members fun m _ => induction null boolean number string array object m.2
termination_by sizeOf v
decreasing_by
  · rename_i hmem
    have hlt := List.sizeOf_lt_of_mem hmem
    simp only [Value.array.sizeOf_spec]
    omega
  · rename_i hmem
    have hlt := List.sizeOf_lt_of_mem hmem
    have hsnd : sizeOf m.2 < sizeOf m := by
      obtain ⟨k, v⟩ := m
      simp only [Prod.mk.sizeOf_spec]
      omega
    simp only [Value.object.sizeOf_spec]
    omega

/-! ## Texts of items and members -/

variable (layout : Layout)

theorem writeItems_eq_map (vs : List Value) : writeItems layout vs = vs.map (write layout) := by
  induction vs with
  | nil => rw [writeItems, List.map_nil]
  | cons v vs ih => rw [writeItems, ih, List.map_cons]

def writeMember (m : String × Value) : List Char :=
  Quote.quoted m.1.toList ++ ':' :: ' ' :: m.2.write layout

theorem writeMembers_eq_map (ms : List (String × Value)) :
    writeMembers layout ms = ms.map (writeMember layout) := by
  induction ms with
  | nil => rw [writeMembers, List.map_nil]
  | cons m ms ih =>
    rw [writeMembers, ih, List.map_cons]
    rfl

/-! ## Numbers -/

mutual

def numbers : Value → List Number
  | .number n => [n]
  | .array items => numbersItems items
  | .object members => numbersMembers members
  | _ => []

def numbersItems : List Value → List Number
  | [] => []
  | v :: vs => v.numbers ++ numbersItems vs

def numbersMembers : List (String × Value) → List Number
  | [] => []
  | (_, v) :: ms => v.numbers ++ numbersMembers ms

end

theorem mem_numbersItems {n : Number} {vs : List Value} :
    n ∈ numbersItems vs ↔ ∃ v ∈ vs, n ∈ v.numbers := by
  induction vs with
  | nil => simp [numbersItems]
  | cons v vs ih => simp [numbersItems, ih]

theorem mem_numbersMembers {n : Number} {ms : List (String × Value)} :
    n ∈ numbersMembers ms ↔ ∃ m ∈ ms, n ∈ m.2.numbers := by
  induction ms with
  | nil => simp [numbersMembers]
  | cons m ms ih => simp [numbersMembers, ih]

end Value

end JsonAutomata
