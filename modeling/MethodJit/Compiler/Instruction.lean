import MethodJit.Code.Layout
import MethodJit.Compiler.Emitter

/-!
# Generating code for instructions

`Emit.instruction` generates the code of the instruction at a position. Instructions that see the frame
find everything in its place: pending values are moved there before. Those that only take and give values
work on pending values, and on numbers without making objects of them where they can.

A branch backward must lead to a place where a block has started; a branch forward makes one start there.
-/

namespace MethodJit.Compiler

open IR

variable {α : Type}

namespace Emit

/-- Reads code from a position on, and gives the position after what was read. -/
def fetch (pos : Nat) (read : Cursor.Read α) : Emit (α × Nat) := do
  match read ⟨(← get).method.bytes, pos⟩ with
  | .ok a c => pure (a, c.pos)
  | .error e _ => throw (.code e)

/-- The block at an offset, which is made if there is none yet. -/
def blockAt (offset : Int) : Emit BlockId := do
  let r ← (← get).blocks.getOrCreate offset (build (.newBlock s!"L{offset}"))
  modify fun e => { e with blocks := r.map }
  pure r.id

/-- Goes on in a block, to which the block before it falls through. -/
def enterBlock (id : BlockId) : Emit Unit := do
  if !(← build .terminated) then do
    syncAll
    build (.terminate (.br id))
    let n := (← get).offset
    log { level := .trace, message := "fallthrough", fields := [("offset", .number n)] }
  build (.setPoint id)
  resetLocals

/-- Checks that no branch leads into an instruction. -/
def checkInterior (pos last : Nat) : Emit Unit := do
  match (← get).blocks.within? (pos + 1) last with
  | some offset => throw (.code (.targetInside offset pos))
  | none => pure ()

/-- The block to which a branch leads. -/
def branchTarget (next : Nat) (distance : Int) : Emit BlockId := do
  let e ← get
  let target := next + distance
  if target < 0 ∨ e.method.bytes.size < target then throw (.code (.targetOutOfRangeAt target e.offset))
  else if target < next then
    match e.blocks.get? target with
    | some id => pure id
    | none => throw (.code (.targetWithoutLabel target e.offset))
  else blockAt target

/-- Checks the index of a local that the instruction implies. -/
def fixedLocal (i : Nat) : Emit Unit := do
  if (← get).method.locals.toInt ≤ i then throw (.code (.noLocal i))

/-- Reads an immediate of a kind. -/
def readImmediate (pos : Nat) (k : Immediate.Kind) : Emit (Nat × Nat) := do
  let m := (← get).method
  let pool := m.constants
  match k with
  | .name => fetch pos (Cursor.index .names pool.names.size)
  | .int => fetch pos (Cursor.index .ints pool.ints.size)
  | .uint => fetch pos (Cursor.index .uints pool.uints.size)
  | .double => fetch pos (Cursor.index .doubles pool.doubles.size)
  | .string => fetch pos (Cursor.index .strings pool.strings.size)
  | .count => fetch pos Cursor.u30
  | .local => fetch pos (Cursor.index .locals m.locals.toInt)
  | .byte => fetch pos Cursor.byte
  | .none => defect "immediate kind 0"

def fetchLocal (pos : Nat) : Emit (Nat × Nat) := readImmediate pos .local

/-- An instruction that takes a value and gives one. Steps of numbers need no object. -/
def unary (h : Helper) (r : Unary) : Emit Unit := do
  let x ← pop
  match x.kind, r with
  | .int, .convertI => push x
  | .int, .incrementI => do
    let one ← const 1
    push (.int (← build (.addInt x.value one)))
  | .int, .decrementI => do
    let one ← const (-1)
    push (.int (← build (.addInt x.value one)))
  | _, _ => do
    let x ← box x
    push (.object (← callHelper h [x.value]))

/-- An instruction that takes two values and gives one, both made objects. -/
def binaryBoxed (h : Helper) (a b : Entry) : Emit Unit := do
  let a ← box a
  let b ← box b
  push (.object (← callHelper h [a.value, b.value]))

/-- The common bits of two entries, of which each can be a number. -/
def bitAnd (h : Helper) (a b : Entry) : Emit Unit := do
  match a.kind, b.kind with
  | .int, .int => do push (.int (← callHelper Registry.bitAndInts [a.value, b.value]))
  | .int, _ => do push (.int (← callHelper Registry.bitAndMixed [b.value, a.value]))
  | _, .int => do push (.int (← callHelper Registry.bitAndMixed [a.value, b.value]))
  | _, _ => do push (.object (← callHelper h [a.value, b.value]))

/-- A shift, of which the shifted entry can be a number. -/
def shift (h : Helper) (s : Shift) (a b : Entry) : Emit Unit := do
  match a.kind with
  | .int => do
    let b ← box b
    push (.object (← callHelper (Registry.shift s) [a.value, b.value]))
  | _ => binaryBoxed h a b

def binary (h : Helper) (r : Binary) : Emit Unit := do
  let b ← pop
  let a ← pop
  match r with
  | .bitAnd => bitAnd h a b
  | .lShift => shift h .left a b
  | .rShift => shift h .right a b
  | .uRShift => shift h .unsignedRight a b
  | .addI =>
    match a.kind, b.kind with
    | .int, .int => do push (.int (← build (.addInt a.value b.value)))
    | _, _ => binaryBoxed h a b
  | _ => binaryBoxed h a b

/-- Emits the call of a routine on the frame and an immediate. -/
def indexed (h : Helper) (k : Immediate.Kind) (pos : Nat) : Emit Nat := do
  let (i, pos) ← readImmediate pos k
  syncAll
  let n ← const (.ofNat i)
  let _ ← callHelper h [paramFrame, n]
  pure pos

/-- Emits the call of a routine on the frame and two immediates, and gives them. -/
def pair (h : Helper) (ks : Immediate.Kind × Immediate.Kind) (pos : Nat) : Emit (Nat × Nat × Nat) := do
  let (i, pos) ← readImmediate pos ks.1
  let (j, pos) ← readImmediate pos ks.2
  syncAll
  let m ← const (.ofNat i)
  let n ← const (.ofNat j)
  let _ ← callHelper h [paramFrame, m, n]
  pure (i, j, pos)

/-- Ends the block with a branch on a condition. -/
def conditional (pos : Nat) (condition : ValueId) : Emit Nat := do
  let (distance, next) ← fetch pos Cursor.s24
  let target ← branchTarget next distance
  let onward ← blockAt next
  syncAll
  build (.terminate (.condBr condition target onward))
  pure next

/-- The helper of an instruction. -/
def helperOf (op : Opcode) (r : Routine) : Helper := .ofRoutine op.name r

/-- Generates the code of an instruction whose immediates start at a position, and gives the position
after it. -/
def instruction (byte : UInt8) (pos : Nat) : Emit Nat := do
  let name := Opcode.nameOfByte byte
  let helper := Helper.ofRoutine name
  let action := actionOfByte byte
  match action with
  | .none => pure pos
  | .debug => do
    let (_, pos) ← fetch pos Layout.debug.skip
    pure pos
  | .note => do
    let (_, pos) ← fetch pos Cursor.u30
    pure pos
  | .pushByte => do
    let (n, pos) ← fetch pos Cursor.byte
    push (.int (← const (signExtend8 n)))
    pure pos
  | .pushShort => do
    let (n, pos) ← fetch pos Cursor.u30
    push (.int (← const (signExtend16 n)))
    pure pos
  | .pop => do
    release (← pop)
    pure pos
  | .dup => do
    let x ← peek
    retain x
    push x
    pure pos
  | .swap => do
    let b ← pop
    let a ← pop
    push b
    push a
    pure pos
  | .getLocal => do
    let (i, pos) ← fetchLocal pos
    push (← getLocal i)
    pure pos
  | .getFixed i => do
    fixedLocal i
    push (← getLocal i)
    pure pos
  | .setLocal => do
    let (i, pos) ← fetchLocal pos
    setLocal i (← box (← pop))
    pure pos
  | .setFixed i => do
    fixedLocal i
    setLocal i (← box (← pop))
    pure pos
  | .kill => do
    let (i, pos) ← fetchLocal pos
    let v ← callHelper (helperOf .pushUndefined (.supply .pushUndefined)) [paramFrame]
    setLocal i (.object v)
    pure pos
  | .stepLocal r => do
    let (i, pos) ← fetchLocal pos
    let x ← getLocal i
    setLocal i (.object (← callHelper (helperOf r.opcode (.unary r)) [x.value]))
    pure pos
  | .returnVoid => do
    syncAll
    resetLocals
    build (.terminate .retVoid)
    pure pos
  | .returnValue => do
    let x ← box (← pop)
    syncAll
    resetLocals
    build (.terminate (.ret x.value))
    pure pos
  | .throw => do
    let x ← box (← pop)
    syncAll
    resetLocals
    let _ ← callHelper Registry.throwValue [x.value]
    build (.terminate .unreachable)
    pure pos
  | .supply s => do
    push (.object (← callHelper (helper (.supply s)) [paramFrame]))
    pure pos
  | .constant c => do
    let (i, pos) ← readImmediate pos action.immediates.1
    let n ← const (.ofNat i)
    push (.object (← callHelper (helper (.constant c)) [paramFrame, n]))
    pure pos
  | .frame a => do
    syncAll
    let _ ← callHelper (helper (.frame a)) [paramFrame]
    pure pos
  | .scopeObject => indexed (helper (.indexed .getScopeObject)) action.immediates.1 pos
  | .named a | .counted a => indexed (helper (.indexed a)) action.immediates.1 pos
  | .namedCounted a => do
    let (_, _, pos) ← pair (helper (.pair a)) action.immediates pos
    pure pos
  | .hasNext2 => do
    let (i, j, pos) ← pair (helper (.pair .hasNext2)) action.immediates pos
    invalidateLocal i
    invalidateLocal j
    pure pos
  | .unary r => do
    if action.throws then syncAll
    unary (helper (.unary r)) r
    pure pos
  | .binary r => do
    if action.throws then syncAll
    binary (helper (.binary r)) r
    pure pos
  | .test t => do
    let x ← box (← pop)
    conditional pos (← callHelper (helper (.test t)) [x.value])
  | .compare c => do
    let b ← pop
    let a ← box (← pop)
    let b ← box b
    conditional pos (← callHelper (helper (.compare c)) [a.value, b.value])
  | .jump => do
    let (distance, next) ← fetch pos Cursor.s24
    let target ← branchTarget next distance
    let _ ← blockAt next
    syncAll
    let n ← const (.ofInt distance)
    let _ ← callHelper (helper (.indexed .jump)) [paramFrame, n]
    build (.terminate (.br target))
    pure next
  | .lookupSwitch | .unsupported => do
    let e ← get
    log {
      level := .error
      message := "unsupported opcode"
      fields := [("method", .text e.method.name), ("opcode", .text name), ("offset", .number e.offset)] }
    build (.terminate (.trap ⟨.unsupported, byte, e.offset⟩))
    throw (.code (.unsupported byte e.offset))

end Emit

end MethodJit.Compiler
