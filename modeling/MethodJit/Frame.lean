import MethodJit.Heap.Call
import MethodJit.Method.Basic

/-!
# Frames

A frame is one invocation of a method: its locals, its operand stack, its scopes, and what it was
called with. The fields `locals` and `stack` name the areas of slots that are in use as such; compiled
code can exchange them.

A `Machine` is a frame together with the heap and the state of the host that runs functions. Actions
on it keep their effect when they fail.
-/

namespace MethodJit

/-- The areas of slots of a frame. -/
inductive Area
  | first
  | second
deriving DecidableEq, Repr

structure Frame where
  /-- The slots that were made for the locals. -/
  firstSlots : Array Value
  /-- The slots that were made for the operands. -/
  secondSlots : Array Value
  locals : Option Area := some .first
  stack : Option Area := some .second
  stackIndex : Int64 := 0
  receiver : Value := .undefined
  args : List Value := []
  scope : Array Value := #[]
  global : Value := .null
  method : Method := {}
  /-- The number of jumps taken. -/
  jumps : Nat := 0
deriving Repr

namespace Frame

/-- The slots of an area; no area has none. -/
def slots (f : Frame) : Option Area → Array Value
  | some .first => f.firstSlots
  | some .second => f.secondSlots
  | none => #[]

/-- The slot of an area at an index, if there is one. -/
def slot? (f : Frame) (s : Option Area) (i : Int64) : Option Value :=
  if i < 0 then none else (f.slots s)[i.toNatClampNeg]?

/-- Whether an area has a slot at an index. -/
def hasSlot (f : Frame) (s : Option Area) (i : Int64) : Bool :=
  0 ≤ i && i.toNatClampNeg < (f.slots s).size

/-- Puts a value into a slot that an area has. -/
def setSlot (f : Frame) (s : Option Area) (i : Int64) (v : Value) : Frame :=
  match s with
  | some .first => { f with firstSlots := f.firstSlots.setIfInBounds i.toNatClampNeg v }
  | some .second => { f with secondSlots := f.secondSlots.setIfInBounds i.toNatClampNeg v }
  | none => f

def localSlots (f : Frame) : Array Value := f.slots f.locals

/-- The operands, the lowest first. -/
def operands (f : Frame) : Array Value := (f.slots f.stack).extract 0 f.stackIndex.toNatClampNeg

/-- The largest number of slots that can be made. -/
def slotLimit : Nat := 0x100000000000

/-- The largest number of operands. Compiled code computes positions on the stack in 32 bits. -/
def operandLimit : Nat := 0x7fffffff

/-- A frame with unbound slots for a method. There is none if a count is negative or too large. -/
def make? (m : Method) (receiver : Value) (args : List Value) (global : Value) : Option Frame :=
  if m.locals < 0 ∨ m.maxStack < 0 ∨ slotLimit < m.locals.toNatClampNeg ∨
      operandLimit < m.maxStack.toNatClampNeg then none
  else some {
    firstSlots := .replicate m.locals.toNatClampNeg .unbound
    secondSlots := .replicate m.maxStack.toNatClampNeg .unbound
    receiver, args, global, method := m }

/-- Puts values into the first slots. -/
def fillSlots (slots : Array Value) (vs : List Value) : Array Value :=
  vs.toArray ++ slots.extract vs.length slots.size

/-- Gives a frame its first locals and its operands, if there are slots for them. -/
def fill? (f : Frame) (locals operands : List Value) : Option Frame :=
  if f.firstSlots.size < locals.length ∨ f.secondSlots.size < operands.length then none
  else some { f with
    firstSlots := fillSlots f.firstSlots locals
    secondSlots := fillSlots f.secondSlots operands
    stackIndex := .ofNat operands.length }

end Frame

/-- The heap and the state of a host. -/
structure Store (σ : Type) where
  heap : Heap
  host : σ

structure Machine (σ : Type) where
  heap : Heap
  frame : Frame
  host : σ

/-- Actions of an invocation. -/
abbrev Act (σ : Type) := EStateM Fault (Machine σ)

/-- How a host runs a method of one of its engines or, if no engine is given, a function of the program
around: with a receiver and arguments, which it borrows. -/
abbrev Host (σ : Type) :=
  (engine : Option Nat) → (index : Nat) → Value → List Value → EStateM Fault (Store σ) Value

variable {σ α : Type}

/-- An action on the heap as one on the machine. -/
def onHeap (x : HeapM α) : Act σ α := fun ⟨heap, frame, host⟩ =>
  match x heap with
  | .ok a heap => .ok a ⟨heap, frame, host⟩
  | .error e heap => .error e ⟨heap, frame, host⟩

/-- An action on the heap as one on the store. -/
def onStoredHeap (x : HeapM α) : EStateM Fault (Store σ) α := fun ⟨heap, host⟩ =>
  match x heap with
  | .ok a heap => .ok a ⟨heap, host⟩
  | .error e heap => .error e ⟨heap, host⟩

/-- An action on the store, during which the frame rests. -/
def onStore (x : EStateM Fault (Store σ) α) : Act σ α := fun ⟨heap, frame, host⟩ =>
  match x ⟨heap, host⟩ with
  | .ok a ⟨heap, host⟩ => .ok a ⟨heap, frame, host⟩
  | .error e ⟨heap, host⟩ => .error e ⟨heap, frame, host⟩

/-- An action of an invocation with a frame of its own. -/
def inFrame (frame : Frame) (x : Act σ α) : EStateM Fault (Store σ) α := fun ⟨heap, host⟩ =>
  match x ⟨heap, frame, host⟩ with
  | .ok a ⟨heap, _, host⟩ => .ok a ⟨heap, host⟩
  | .error e ⟨heap, _, host⟩ => .error e ⟨heap, host⟩

def frame : Act σ Frame := fun m => .ok m.frame m

def modifyFrame (f : Frame → Frame) : Act σ Unit := fun ⟨heap, frame, host⟩ =>
  .ok () ⟨heap, f frame, host⟩

/-- Reads a slot of the frame. -/
def readSlot (s : Frame → Option Area) (i : Int64) : Act σ Value := fun m =>
  match m.frame.slot? (s m.frame) i with
  | some v => .ok v m
  | none => .error .bounds m

/-- Writes a slot of the frame. -/
def writeSlot (s : Frame → Option Area) (i : Int64) (v : Value) : Act σ Unit :=
  fun ⟨heap, frame, host⟩ =>
    if frame.hasSlot (s frame) i then .ok () ⟨heap, frame.setSlot (s frame) i v, host⟩
    else .error .bounds ⟨heap, frame, host⟩

def readLocal (i : Int64) : Act σ Value := readSlot Frame.locals i
def writeLocal (i : Int64) (v : Value) : Act σ Unit := writeSlot Frame.locals i v

/-- Puts an operand on the stack. -/
def push (v : Value) : Act σ Unit := do
  let i := (← frame).stackIndex
  writeSlot Frame.stack i v
  modifyFrame fun f => { f with stackIndex := i + 1 }

/-- Takes the topmost operand. -/
def pop : Act σ Value := do
  let i := (← frame).stackIndex - 1
  let v ← readSlot Frame.stack i
  writeSlot Frame.stack i .unbound
  modifyFrame fun f => { f with stackIndex := i }
  pure v

/-- Unbinds `n` slots from `i` on. -/
def unbindFrom : Nat → Int64 → Act σ Unit
  | 0, _ => pure ()
  | n + 1, i => do
    writeSlot Frame.stack i .unbound
    unbindFrom n (i + 1)

/-- Takes the topmost `n` operands, the lowest first. -/
def popMany (n : Int32) : Act σ (List Value) := do
  let f ← frame
  let i := f.stackIndex - n.toInt64
  let size := (f.slots f.stack).size
  if n < 0 ∨ i < 0 ∨ (size : Int) < i.toInt + n.toInt then throw .bounds
  else do
    let start := i.toNatClampNeg
    let vs := (f.slots f.stack).extract start (start + n.toNatClampNeg)
    unbindFrom n.toNatClampNeg i
    modifyFrame fun f => { f with stackIndex := i }
    pure vs.toList

/-- Runs `body` and then gives up `v`, also if `body` fails; a failure to release wins. -/
def consumingAct (v : Value) (body : Act σ α) : Act σ α :=
  if v.isBound then ensuring body (onHeap (release v)) else throw .bounds

end MethodJit
