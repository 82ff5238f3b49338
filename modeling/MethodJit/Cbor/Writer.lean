import MethodJit.Double.Narrow

/-!
# Writing data items

Numbers, strings and the heads of arrays and maps in their shortest form. A floating-point number takes
the shortest format that has it, and all NaNs are written alike.
-/

namespace MethodJit.Cbor

/-- A number as `size` bytes, the most significant one first. -/
def writeNumber : Nat → Nat → List UInt8
  | 0, _ => []
  | size + 1, n => writeNumber size (n / 256) ++ [.ofNat n]

/-- The start of an item of a major type with an argument. -/
def writeHead (major argument : Nat) : List UInt8 :=
  let first (info : Nat) : UInt8 := .ofNat (32 * major + info)
  if argument < 24 then [first argument]
  else if argument < 0x100 then first 24 :: writeNumber 1 argument
  else if argument < 0x10000 then first 25 :: writeNumber 2 argument
  else if argument < 0x100000000 then first 26 :: writeNumber 4 argument
  else first 27 :: writeNumber 8 argument

def writeInt (n : Int) : List UInt8 :=
  if n < 0 then writeHead 1 (-1 - n).toNat else writeHead 0 n.toNat

def writeBytes (bs : List UInt8) : List UInt8 := writeHead 2 bs.length ++ bs

def writeText (s : String) : List UInt8 :=
  let bs := s.toUTF8.toList
  writeHead 3 bs.length ++ bs

def writeNull : List UInt8 := [0xf6]

/-- A NaN of the shortest format. -/
def writeNaN : List UInt8 := [0xf9, 0x7e, 0x00]

def writeDouble (x : Double) : List UInt8 :=
  if x.isNaN then writeNaN
  else match Double.half.narrow? x, Double.single.narrow? x with
    | some n, _ => 0xf9 :: writeNumber 2 n
    | none, some n => 0xfa :: writeNumber 4 n
    | none, none => 0xfb :: writeNumber 8 x.bits.toNat

/-- An array of written items. -/
def writeArray (items : List (List UInt8)) : List UInt8 := writeHead 4 items.length ++ items.flatten

/-- A map from numbers to written items. -/
def writeMap (entries : List (Nat × List UInt8)) : List UInt8 :=
  writeHead 5 entries.length ++ entries.flatMap fun (k, v) => writeHead 0 k ++ v

end MethodJit.Cbor
