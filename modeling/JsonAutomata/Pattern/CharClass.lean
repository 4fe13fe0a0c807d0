import JsonAutomata.Sorted.Set

/-!
# Character classes — named sets of characters

A class is what one step of a pattern consumes. Its name is what patterns and automata display, so
two classes are the same only if both the names and the sets agree. Classes are ordered by name
first, then by their ascending lists of characters; automata list their alphabets in this order.
-/

namespace JsonAutomata

/-- A named set of accepted characters, such as `[0-9]`. -/
structure CharClass where
  name : String
  accepted : SortedSet Char
  deriving DecidableEq

namespace CharClass

instance : Ord CharClass where
  compare := compareLex (compareOn CharClass.name) (compareOn fun c => c.accepted.toList)

theorem compare_def (a b : CharClass) :
    compare a b = (compare a.name b.name).then (compare a.accepted.toList b.accepted.toList) := rfl

instance : Std.TransOrd CharClass :=
  inferInstanceAs (Std.TransCmp (compareLex (compareOn _) (compareOn _)))

instance : Std.LawfulEqOrd CharClass where
  eq_of_compare {a b} h := by
    rw [compare_def, Ordering.then_eq_eq] at h
    have hn := Std.LawfulEqCmp.eq_of_compare h.1
    have hl := Std.LawfulEqCmp.eq_of_compare h.2
    rcases a with ⟨na, la, ha⟩
    rcases b with ⟨nb, lb, hb⟩
    simp only at hn hl
    subst hn hl
    rfl

def ofChars (chars : List Char) (name : String) : CharClass := ⟨name, .ofList chars⟩

def single (c : Char) : CharClass := ⟨String.singleton c, .singleton c⟩

def range (first last : Char) (name : String) : CharClass :=
  let codes := List.range' first.toNat (last.toNat + 1 - first.toNat)
  ofChars ((codes.filter fun n => n.isValidChar).map Char.ofNat) name

def digits : CharClass := range '0' '9' "[0-9]"

def letterChars : List Char := "ABCDEFGHIJKLMNOPQRSTUVWXYZabcdefghijklmnopqrstuvwxyz".toList

def letters : CharClass := ofChars letterChars "[a-zA-Z]"

/-- Digits, letters, common punctuation and the space. -/
def any : CharClass := ofChars ("0123456789!@#$%^&*()_+-= ".toList ++ letterChars) "."

def without (c : CharClass) (chars : List Char) (name : String) : CharClass :=
  ⟨name, c.accepted.filter fun a => !chars.contains a⟩

@[inline]
def accepts (cls : CharClass) (c : Char) : Bool := cls.accepted.contains c

def size (c : CharClass) : Nat := c.accepted.size

def isEmpty (c : CharClass) : Bool := c.accepted.isEmpty

/-! ## What the operations accept -/

theorem accepts_iff {cls : CharClass} {c : Char} : cls.accepts c = true ↔ c ∈ cls.accepted :=
  SortedSet.contains_iff

@[simp]
theorem mem_ofChars {chars : List Char} {name : String} {c : Char} :
    c ∈ (ofChars chars name).accepted ↔ c ∈ chars := SortedSet.mem_ofList

@[simp]
theorem mem_single {a c : Char} : c ∈ (single a).accepted ↔ c = a := SortedSet.mem_singleton

@[simp]
theorem mem_without {cls : CharClass} {chars : List Char} {name : String} {c : Char} :
    c ∈ (cls.without chars name).accepted ↔ c ∈ cls.accepted ∧ ¬ c ∈ chars := by
  simp [without]

end CharClass

end JsonAutomata
