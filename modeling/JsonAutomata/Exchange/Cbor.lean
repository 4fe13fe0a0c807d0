import JsonAutomata.Exchange.Datum
import JsonAutomata.Text.Utf8

/-!
# CBOR — concise binary object representation

Every item begins with three bits of type and an argument in as few bytes as it needs. Lengths are
definite, and a floating-point number takes the shortest format that has its value.
-/

namespace JsonAutomata

/-- A number as `count` bytes, the most significant first. -/
def bigEndian (count n : Nat) : List UInt8 :=
  (List.range count).map fun i => UInt8.ofNat (n / Nat.pow 256 (count - 1 - i))

namespace Cbor

/-- The head of an item: its type and an argument. -/
def head (type argument : Nat) : List UInt8 :=
  let first (low : Nat) : UInt8 := UInt8.ofNat (32 * type + low)
  if argument < 24 then [first argument]
  else if argument < Nat.pow 2 8 then first 24 :: bigEndian 1 argument
  else if argument < Nat.pow 2 16 then first 25 :: bigEndian 2 argument
  else if argument < Nat.pow 2 32 then first 26 :: bigEndian 4 argument
  else first 27 :: bigEndian 8 argument

/-- An integer; negative ones count down from minus one. -/
def integer : Int → List UInt8
  | .ofNat n => head 0 n
  | .negSucc n => head 1 n

/-- A floating-point number of the sixty-four-bit format, in the shortest format that has it. -/
def float (x : BinaryFloat) : List UInt8 :=
  let as (fmt : BinaryFormat) (first : UInt8) :=
    first :: bigEndian (fmt.width / 8) (fmt.toBits (fmt.convert x))
  if BinaryFormat.half.represents .double x then as .half 0xF9
  else if BinaryFormat.single.represents .double x then as .single 0xFA
  else as .double 0xFB

def text (s : String) : List UInt8 :=
  let bytes := Utf8.encode s.toList
  head 3 bytes.length ++ bytes

mutual

def encode : Datum → List UInt8
  | .null => [0xF6]
  | .boolean b => [if b then 0xF5 else 0xF4]
  | .integer i => integer i
  | .float x => float x
  | .text s => text s
  | .sequence items => head 4 items.length ++ encodeItems items
  | .mapping entries => head 5 entries.length ++ encodeEntries entries

def encodeItems : List Datum → List UInt8
  | [] => []
  | d :: ds => encode d ++ encodeItems ds

def encodeEntries : List (String × Datum) → List UInt8
  | [] => []
  | (k, d) :: es => text k ++ encode d ++ encodeEntries es

end

end Cbor

end JsonAutomata
