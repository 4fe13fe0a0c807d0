import JsonAutomata.Exchange.Cbor

/-!
# MessagePack — compact binary documents

Integers and lengths take the shortest form that holds them, integers that are not negative the
unsigned ones. Floating-point numbers always have 64 bits.
-/

namespace JsonAutomata

namespace MessagePack

/-- A length: in the first byte if it is small, else in one of the wider forms, each given by its
first byte and the number of bytes of the length. -/
def length (small limit : Nat) (wide : List (UInt8 × Nat)) (n : Nat) : List UInt8 :=
  if n < limit then [UInt8.ofNat (small + n)]
  else match wide.find? fun (_, count) => n < Nat.pow 256 count with
    | some (first, count) => first :: bigEndian count n
    | none => []

def integer (i : Int) : List UInt8 :=
  let twos (count : Nat) := bigEndian count (i + Nat.pow 256 count).toNat
  if 0 ≤ i then length 0 128 [(0xCC, 1), (0xCD, 2), (0xCE, 4), (0xCF, 8)] i.toNat
  else if -32 ≤ i then twos 1
  else if -128 ≤ i then 0xD0 :: twos 1
  else if -32768 ≤ i then 0xD1 :: twos 2
  else if -2147483648 ≤ i then 0xD2 :: twos 4
  else 0xD3 :: twos 8

def text (s : String) : List UInt8 :=
  let bytes := Utf8.encode s.toList
  length 0xA0 32 [(0xD9, 1), (0xDA, 2), (0xDB, 4)] bytes.length ++ bytes

mutual

def encode : Datum → List UInt8
  | .null => [0xC0]
  | .boolean b => [if b then 0xC3 else 0xC2]
  | .integer i => integer i
  | .float x => 0xCB :: bigEndian 8 (BinaryFormat.double.toBits x)
  | .text s => text s
  | .sequence items =>
    length 0x90 16 [(0xDC, 2), (0xDD, 4)] items.length ++ encodeItems items
  | .mapping entries =>
    length 0x80 16 [(0xDE, 2), (0xDF, 4)] entries.length ++ encodeEntries entries

def encodeItems : List Datum → List UInt8
  | [] => []
  | d :: ds => encode d ++ encodeItems ds

def encodeEntries : List (String × Datum) → List UInt8
  | [] => []
  | (k, d) :: es => text k ++ encode d ++ encodeEntries es

end

end MessagePack

end JsonAutomata
