import MethodJit.Compiler.BlockMap
import MethodJit.Compiler.Entry
import MethodJit.Frame
import MethodJit.Log
import MethodJit.Registry
import MethodJit.Text.Quoted

/-!
# Emitting code with pending values

Pushing an operand or setting a local emits nothing: the value is kept in the emitter. Operands are
popped from there, or from the real stack if there are none. `sync` moves the pending operands to the
real stack, and `syncLocals` the dirty locals to their places; `syncAll` does both, after which the
frame is as if everything had been done at once.
-/

namespace MethodJit.Compiler

open IR

structure Emitter where
  builder : Builder
  method : Method
  blocks : BlockMap := {}
  /-- The start of the instruction that code is generated for. -/
  offset : Int := 0
  /-- The pending operands, the topmost first. -/
  operands : List Entry := []
  locals : Array Slot := #[]
  log : Array LogLine := #[]

/-- Actions that emit code. -/
abbrev Emit := EStateM Fault Emitter

variable {α : Type}

/-- An emitter for a method. There is none if its count of locals is negative or too large. -/
def Emitter.make? (m : Method) : Option Emitter :=
  if m.locals < 0 ∨ Frame.slotLimit < m.locals.toNatClampNeg then none
  else some {
    builder := { function := { name := m.name } }
    method := m
    locals := .replicate m.locals.toNatClampNeg {} }

def Emitter.function (e : Emitter) : Function := e.builder.function

namespace Emit

/-- An action on the function that is built. -/
def build (x : Build α) : Emit α := fun ⟨builder, method, blocks, offset, operands, locals, log⟩ =>
  match x builder with
  | .ok a builder => .ok a ⟨builder, method, blocks, offset, operands, locals, log⟩
  | .error e builder => .error e ⟨builder, method, blocks, offset, operands, locals, log⟩

/-- Makes a block and goes on in it. -/
def startBlock (name : String) : Emit Unit := do
  let id ← build (.newBlock name)
  build (.setPoint id)

/-- Reports a defect of the compiler. -/
def defect (message : String) : Emit α := do throw (.internal (← get).offset message)

def log (l : LogLine) : Emit Unit := modify fun e => { e with log := e.log.push l }

def setOffset (n : Int) : Emit Unit := modify fun e => { e with offset := n }

def callHelper (h : Helper) (args : List ValueId) : Emit ValueId := build (.call h args)

/-- Calls the helper of a name. -/
def callNamed (name : String) (args : List ValueId) : Emit ValueId := do
  match Registry.table.find? name with
  | some h => callHelper h args
  | none => defect ("helper " ++ Text.quote name ++ " is not declared")

def const (n : Int32) : Emit ValueId := build (.constInt n.toInt64)

/-- Emits a new reference to what an entry owns. -/
def retain (e : Entry) : Emit Unit := do
  if e.owns then
    let _ ← callHelper Registry.retain [e.value]

/-- Emits the release of what an entry owns. -/
def release (e : Entry) : Emit Unit := do
  if e.owns then
    let _ ← callHelper Registry.release [e.value]

/-- Makes an object of an entry. -/
def box (e : Entry) : Emit Entry := do
  match e.kind with
  | .object => pure e
  | .int => do pure (.object (← callHelper Registry.boxInt [e.value]))
  | k => defect ("boxing " ++ k.name ++ " entry")

def stackIndex : Emit ValueId := build (.loadField paramFrame .stackIndex)

/-- Emits a push on the real stack. -/
def pushReal (v : ValueId) : Emit Unit := do
  let i ← stackIndex
  build (.storeElem paramStack i v)
  let one ← const 1
  let next ← build (.addInt i one)
  build (.storeField paramFrame .stackIndex next)

/-- Emits the index of the topmost operand on the real stack. -/
def topIndex : Emit ValueId := do
  let i ← stackIndex
  let one ← const (-1)
  build (.addInt i one)

/-- Emits a pop from the real stack. -/
def popReal : Emit ValueId := do
  let i ← topIndex
  build (.storeField paramFrame .stackIndex i)
  build (.loadElem paramStack i)

def peekReal : Emit ValueId := do
  let i ← topIndex
  build (.loadElem paramStack i)

def loadLocal (i : Int) : Emit ValueId := do
  let n ← const (.ofInt i)
  build (.loadElem paramLocals n)

def storeLocal (i : Int) (v : ValueId) : Emit Unit := do
  let n ← const (.ofInt i)
  build (.storeElem paramLocals n v)

def push (e : Entry) : Emit Unit := do
  if e.isNone then defect "pushing none entry"
  else modify fun s => { s with operands := e :: s.operands }

def pop : Emit Entry := do
  match (← get).operands with
  | e :: rest =>
    modify fun s => { s with operands := rest }
    pure e
  | [] => do pure (.object (← popReal))

def peek : Emit Entry := do
  match (← get).operands with
  | e :: _ => pure e
  | [] => do pure (.object (← peekReal))

/-- Emits the pushes of entries, the first one first. -/
def pushEntries : List Entry → Emit Unit
  | [] => pure ()
  | e :: es => do
    let e ← box e
    pushReal e.value
    pushEntries es

/-- Moves the pending operands to the real stack. -/
def sync : Emit Unit := do
  pushEntries (← get).operands.reverse
  modify fun s => { s with operands := [] }

/-- The slot of a local. -/
def slot (i : Int) : Emit Slot := do
  let e ← get
  let found := if i < 0 then none else e.locals[i.toNat]?
  match found with
  | some s => pure s
  | none => defect s!"local {i} out of range"

def setSlot (i : Int) (s : Slot) : Emit Unit :=
  modify fun e => { e with locals := e.locals.setIfInBounds i.toNat s }

/-- An entry for a new reference to the value of a local. -/
def getLocal (i : Int) : Emit Entry := do
  let s ← slot i
  let e ←
    if s.entry.isNone then do
      let e := Entry.object (← loadLocal i)
      setSlot i ⟨e, false⟩
      pure e
    else pure s.entry
  retain e
  pure e

/-- Sets a local to an object. The value that it held pending is released; the value in its place will be
released when the local is synchronized. -/
def setLocal (i : Int) (e : Entry) : Emit Unit := do
  if e.kind ≠ .object then defect (s!"setting local {i} to " ++ e.kind.name ++ " entry")
  let s ← slot i
  if s.dirty then do
    release s.entry
    setSlot i ⟨e, true⟩
  else if s.entry = e then release e
  else setSlot i ⟨e, true⟩

/-- Moves dirty locals to their places, `n` locals from `i` on. -/
def syncLocalsFrom : Nat → Nat → Emit Unit
  | 0, _ => pure ()
  | n + 1, i => do
    let s ← slot i
    if s.dirty then do
      if s.entry.kind ≠ .object then defect (s!"local {i} is " ++ s.entry.kind.name)
      let old ← loadLocal i
      storeLocal i s.entry.value
      let _ ← callHelper Registry.releaseBound [old]
      setSlot i { s with dirty := false }
    syncLocalsFrom n (i + 1)

/-- Moves all dirty locals to their places. -/
def syncLocals : Emit Unit := do
  syncLocalsFrom (← get).locals.size 0

def syncAll : Emit Unit := do
  sync
  syncLocals

/-- Forgets what is known of a local. -/
def invalidateLocal (i : Int) : Emit Unit := do
  let s ← slot i
  if s.dirty then defect s!"invalidating dirty local {i}"
  setSlot i {}

/-- Forgets what is known of the locals. -/
def resetLocals : Emit Unit := do
  let slots := (← get).locals
  match slots.findIdx? Slot.dirty with
  | some i => defect s!"local {i} is dirty at block boundary"
  | none => modify fun e => { e with locals := .replicate e.locals.size {} }

end Emit

end MethodJit.Compiler
