import MethodJit.Code.Immediate

/-!
# Reading code

A `Cursor` is a position in code. Reading moves it past what was read, also when the read fails, and
`seek` moves it anywhere in the code or to its end.
-/

namespace MethodJit

structure Cursor where
  code : Array UInt8
  pos : Nat := 0
deriving Repr

namespace Cursor

/-- Actions on a cursor, which keep its position when they fail. -/
abbrev Read := EStateM CodeFault Cursor

def atEnd (c : Cursor) : Bool := c.code.size ≤ c.pos

/-- Moves past what was decoded and gives its value. -/
def take {α : Type} (decode : Array UInt8 → Nat → Decoded α) : Read α := fun c =>
  let r := decode c.code c.pos
  let c := { c with pos := c.pos + r.length }
  match r.fault with
  | none => .ok r.value c
  | some e => .error e c

def byte : Read Nat := take Immediate.u8At
def s24 : Read Int := take Immediate.s24At
def u30 : Read Nat := take Immediate.u30At

/-- An index below `size` into a table. -/
def index (table : Table) (size : Int) : Read Nat := do
  let i ← u30
  if (i : Int) < size then pure i else throw (.indexOutOfRange table i size)

/-- A number that is at most `limit`. -/
def count (what : String) (limit : Nat) : Read Nat := do
  let n ← u30
  if n ≤ limit then pure n else throw (.countTooLarge what n)

def seek (target : Int) : Read Unit := fun c =>
  if 0 ≤ target ∧ target ≤ c.code.size then .ok () { c with pos := target.toNat }
  else .error (.targetOutOfRange target) c

end Cursor

end MethodJit
