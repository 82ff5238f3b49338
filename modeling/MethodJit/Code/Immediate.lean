import MethodJit.Code.Fault

/-!
# Immediates

Operands inside code: a byte, a signed number of 24 bits with the least significant byte first, and an
unsigned number in groups of seven bits, the least significant first, each but the last with the high
bit set. A number has at most five groups and 32 bits; what the fifth group holds beyond that is lost.
`Decoded` tells what was read and how many bytes it took, also if it failed.
-/

namespace MethodJit

/-- The outcome of a read. -/
structure Decoded (α : Type) where
  value : α
  length : Nat
  fault : Option CodeFault := none
deriving DecidableEq, Repr

namespace Immediate

def u8At (code : Array UInt8) (pos : Nat) : Decoded Nat :=
  match code[pos]? with
  | some b => ⟨b.toNat, 1, none⟩
  | none => ⟨0, 0, some .ended⟩

/-- A number of 24 bits as a signed number. -/
def signExtend24 (n : Nat) : Int :=
  if n < 0x800000 then n else n - 0x1000000

def s24At (code : Array UInt8) (pos : Nat) : Decoded Int :=
  match code[pos]?, code[pos + 1]?, code[pos + 2]? with
  | some a, some b, some c => ⟨signExtend24 (a.toNat + b.toNat * 256 + c.toNat * 65536), 3, none⟩
  | none, _, _ => ⟨0, 0, some .ended⟩
  | some _, none, _ => ⟨0, 1, some .truncated⟩
  | some _, some _, none => ⟨0, 2, some .truncated⟩

/-- Reads at most `groups` further groups of a number of which `n` groups with the value `acc` are
read. -/
def groupsAt (code : Array UInt8) (pos : Nat) : (groups n acc : Nat) → Decoded Nat
  | 0, n, _ => ⟨0, n, some .tooManyGroups⟩
  | groups + 1, n, acc =>
    match code[pos + n]? with
    | none => ⟨acc, n, some .ended⟩
    | some b =>
      let acc := acc + b.toNat % 128 * Nat.pow 128 n
      if b < 128 then ⟨acc % 0x100000000, n + 1, none⟩
      else groupsAt code pos groups (n + 1) acc

def u32At (code : Array UInt8) (pos : Nat) : Decoded Nat :=
  groupsAt code pos 5 0 0

/-- An unsigned number below `2 ^ 30`. -/
def u30At (code : Array UInt8) (pos : Nat) : Decoded Nat :=
  let r := u32At code pos
  match r.fault with
  | some e => ⟨0, r.length, some e⟩
  | none => if r.value < 0x40000000 then r else ⟨0, r.length, some .valueTooLarge⟩

/-- A number in at most `groups + 1` groups. -/
def encodeGroups : Nat → Nat → List UInt8
  | 0, n => [.ofNat n]
  | groups + 1, n =>
    if n < 128 then [.ofNat n] else .ofNat (n % 128 + 128) :: encodeGroups groups (n / 128)

def encodeU32 (n : UInt32) : List UInt8 := encodeGroups 4 n.toNat

/-- The low 24 bits of a number. -/
def encodeS24 (x : Int32) : List UInt8 :=
  let n := (x.toInt % 0x1000000).toNat
  [.ofNat (n % 256), .ofNat (n / 256 % 256), .ofNat (n / 65536)]

end Immediate

end MethodJit
