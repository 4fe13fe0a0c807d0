import JsonAutomata.Json.Number
import JsonAutomata.Sorted.Map

/-!
# JSON values — document trees

The members of an object are kept in ascending order of their keys, each key once. The type itself
admits any list of members; `Value.Sorted` says that all lists in a tree are in order, and every
operation of the library that builds a value keeps it so.

Equality compares numbers by value (`Number.beq`), whatever their texts.
-/

namespace JsonAutomata

inductive Value where
  | null
  | boolean (value : Bool)
  | number (value : Number)
  | string (value : String)
  | array (items : List Value)
  | object (members : List (String × Value))
  deriving Inhabited

namespace Value

/-- The object of some members; of members with equal keys the last one stays. -/
def ofMembers (members : List (String × Value)) : Value := .object (Entries.ofList members)

/-! ## Sortedness -/

mutual

/-- All objects in the value have their members in ascending order of keys. -/
def Sorted : Value → Prop
  | .array items => SortedItems items
  | .object members => Entries.KeysAscend members ∧ SortedMembers members
  | _ => True

def SortedItems : List Value → Prop
  | [] => True
  | v :: vs => v.Sorted ∧ SortedItems vs

def SortedMembers : List (String × Value) → Prop
  | [] => True
  | (_, v) :: ms => v.Sorted ∧ SortedMembers ms

end

/-! ## Equality by value -/

mutual

/-- Whether two values are equal, numbers being compared by value. -/
def beq : Value → Value → Bool
  | .null, .null => true
  | .boolean a, .boolean b => a = b
  | .number a, .number b => a.beq b
  | .string a, .string b => a = b
  | .array as, .array bs => beqItems as bs
  | .object as, .object bs => beqMembers as bs
  | _, _ => false

def beqItems : List Value → List Value → Bool
  | [], [] => true
  | a :: as, b :: bs => a.beq b && beqItems as bs
  | _, _ => false

def beqMembers : List (String × Value) → List (String × Value) → Bool
  | [], [] => true
  | (k, a) :: as, (l, b) :: bs => decide (k = l) && a.beq b && beqMembers as bs
  | _, _ => false

end

instance : BEq Value := ⟨beq⟩

/-! ## Depth -/

mutual

/-- One more than the number of containers around the most deeply nested value. -/
def depth : Value → Nat
  | .array items => 1 + depthItems items
  | .object members => 1 + depthMembers members
  | _ => 1

def depthItems : List Value → Nat
  | [] => 0
  | v :: vs => max v.depth (depthItems vs)

def depthMembers : List (String × Value) → Nat
  | [] => 0
  | (_, v) :: ms => max v.depth (depthMembers ms)

end

/-! ## Access -/

/-- The member of an object under `key`, or the item of an array at the place that `key` spells. -/
def get? (key : String) : Value → Option Value
  | .object members => Entries.lookup key members
  | .array items => (readUnsigned? 64 key.toList).bind fun i => items[i]?
  | _ => none

def getPath? (path : List String) (v : Value) : Option Value :=
  path.foldlM (fun v key => v.get? key) v

def isNull : Value → Bool
  | .null => true
  | _ => false

def toBool? : Value → Option Bool
  | .boolean b => some b
  | _ => none

def toString? : Value → Option String
  | .string s => some s
  | _ => none

def toInt64? : Value → Option Int
  | .number n => n.toInt64?
  | _ => none

def toDouble? : Value → Option BinaryFloat
  | .number n => n.toDouble?
  | _ => none

def items? : Value → Option (List Value)
  | .array items => some items
  | _ => none

def members? : Value → Option (List (String × Value))
  | .object members => some members
  | _ => none

def typeName : Value → String
  | .null => "null"
  | .boolean _ => "boolean"
  | .number _ => "number"
  | .string _ => "string"
  | .array _ => "array"
  | .object _ => "object"

end Value

end JsonAutomata
