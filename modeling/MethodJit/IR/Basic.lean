import MethodJit.Fault
import MethodJit.Routine.Helper

/-!
# Functions of compiled code

A function is a list of blocks, each with instructions and a terminator. Every instruction that has a
result assigns a new value, and the function knows the types of its values. The first values are the
parameters: the area of the locals, the area of the operands, and the frame.

`Build` appends to the block at the insertion point. It takes all that it is given and counts misuse,
which `Function.problems` reports.
-/

namespace MethodJit.IR

/-- The number of a value; zero stands for none. -/
abbrev ValueId := Nat

def paramLocals : ValueId := 1
def paramStack : ValueId := 2
def paramFrame : ValueId := 3

def valueName (v : ValueId) : String := s!"v{v}"

/-- The fields of a frame that compiled code can reach. -/
inductive Field
  | locals
  | stack
  | stackIndex
  | other (n : UInt8)
deriving DecidableEq, Repr

namespace Field

def ofNumber (n : UInt8) : Field :=
  if n = 0 then .locals else if n = 1 then .stack else if n = 2 then .stackIndex else .other n

def name : Field → String
  | .locals => "locals"
  | .stack => "stack"
  | .stackIndex => "stackIndex"
  | .other n => s!"<field {n}>"

def type : Field → Ty
  | .stackIndex => .int
  | _ => .slice

end Field

inductive Op
  | constInt
  | loadField
  | storeField
  | loadElem
  | storeElem
  | addInt
  | call
  | other (n : UInt8)
deriving DecidableEq, Repr

namespace Op

def all : List Op :=
  [.constInt, .loadField, .storeField, .loadElem, .storeElem, .addInt, .call]

def ofNumber (n : UInt8) : Op := all[n.toNat]?.getD (.other n)

def name : Op → String
  | .constInt => "const"
  | .loadField => "load.field"
  | .storeField => "store.field"
  | .loadElem => "load.elem"
  | .storeElem => "store.elem"
  | .addInt => "add.int"
  | .call => "call"
  | .other n => s!"<op {n}>"

end Op

structure Instr where
  op : Op
  result : ValueId := 0
  args : List ValueId := []
  constant : Int64 := 0
  field : Field := .locals
  helper : Option Helper := none
deriving DecidableEq, Repr

/-- The number of a block; that of a target can be any number until it is checked. -/
abbrev BlockId := Int

inductive Term
  | none
  | br (target : BlockId)
  | condBr (condition : ValueId) (taken notTaken : BlockId)
  | ret (v : ValueId)
  | retVoid
  | unreachable
  | trap (t : Trap)
deriving DecidableEq, Repr

namespace Term

def name : Term → String
  | .none => "<none>"
  | .br _ => "br"
  | .condBr .. => "condbr"
  | .ret _ => "ret"
  | .retVoid => "ret.void"
  | .unreachable => "unreachable"
  | .trap _ => "trap"

/-- One terminator of each kind, in the order of the kinds. -/
def samples : List Term :=
  [.none, .br 0, .condBr 0 0 0, .ret 0, .retVoid, .unreachable, .trap ⟨.unreachable, 0, 0⟩]

end Term

structure Block where
  name : String
  instrs : Array Instr := #[]
  /-- The first terminator that was set. -/
  term : Term := .none
  /-- How often a terminator was set. -/
  terms : Nat := 0
  /-- How many instructions were appended after a terminator was set. -/
  afterTerms : Nat := 0
deriving Repr

structure Function where
  name : String
  blocks : Array Block := #[]
  /-- The types of the values. -/
  types : Array Ty := #[.void, .slice, .slice, .context]
deriving Repr

namespace Function

/-- The type of a value, void if there is no such value. -/
def typeOf (f : Function) (v : ValueId) : Ty := f.types[v]?.getD .void

/-- The number of values, none and the parameters included. -/
def numValues (f : Function) : Nat := f.types.size

/-- The number of instructions in all blocks. -/
def numInstrs (f : Function) : Nat := f.blocks.foldl (fun n b => n + b.instrs.size) 0

def block? (f : Function) (id : BlockId) : Option Block :=
  if id < 0 then none else f.blocks[id.toNat]?

/-- Changes a block. -/
def modifyBlock (f : Function) (id : BlockId) (g : Block → Block) : Function :=
  { f with blocks := f.blocks.modify id.toNat g }

end Function

/-- A function and the block to which instructions are appended. -/
structure Builder where
  function : Function
  point : BlockId := -1
deriving Repr

/-- Actions that build a function. -/
abbrev Build := EStateM Fault Builder

namespace Build

/-- Makes an empty block at the end and gives its number. -/
def newBlock (name : String) : Build BlockId := fun ⟨f, point⟩ =>
  .ok f.blocks.size ⟨{ f with blocks := f.blocks.push { name } }, point⟩

def setPoint (id : BlockId) : Build Unit := fun b => .ok () { b with point := id }

/-- Whether the block at the insertion point has a terminator. -/
def terminated : Build Bool := fun b =>
  match b.function.block? b.point with
  | some blk => .ok (0 < blk.terms) b
  | none => .error .bounds b

/-- Changes the block at the insertion point. -/
def modifyPoint (g : Block → Block) : Build Unit := fun ⟨f, point⟩ =>
  match f.block? point with
  | some _ => .ok () ⟨f.modifyBlock point g, point⟩
  | none => .error .bounds ⟨f, point⟩

/-- A new value of a type, or none for void. -/
def newValue (t : Ty) : Build ValueId := fun ⟨f, point⟩ =>
  match t with
  | .void => .ok 0 ⟨f, point⟩
  | t => .ok f.types.size ⟨{ f with types := f.types.push t }, point⟩

/-- Adds an instruction to a block. -/
def appendTo (i : Instr) (b : Block) : Block :=
  { b with
    instrs := b.instrs.push i
    afterTerms := if 0 < b.terms then b.afterTerms + 1 else b.afterTerms }

/-- Appends an instruction whose result has a type, and gives the result. -/
def append (t : Ty) (i : Instr) : Build ValueId := do
  let v ← newValue t
  modifyPoint (appendTo { i with result := v })
  pure v

def constInt (n : Int64) : Build ValueId := append .int { op := .constInt, constant := n }

def loadField (frame : ValueId) (field : Field) : Build ValueId :=
  append field.type { op := .loadField, args := [frame], field }

def storeField (frame : ValueId) (field : Field) (x : ValueId) : Build Unit := do
  let _ ← append .void { op := .storeField, args := [frame, x], field }

def loadElem (slice index : ValueId) : Build ValueId :=
  append .object { op := .loadElem, args := [slice, index] }

def storeElem (slice index x : ValueId) : Build Unit := do
  let _ ← append .void { op := .storeElem, args := [slice, index, x] }

/-- Adds two numbers, of which the low 32 bits count. -/
def addInt (x y : ValueId) : Build ValueId := append .int { op := .addInt, args := [x, y] }

/-- Calls a helper. The result is none if the helper gives none. -/
def call (h : Helper) (args : List ValueId) : Build ValueId :=
  append h.signature.result { op := .call, args, helper := some h }

/-- Ends a block, unless it has ended already. -/
def terminateWith (t : Term) (b : Block) : Block :=
  { b with term := if b.terms = 0 then t else b.term, terms := b.terms + 1 }

def terminate (t : Term) : Build Unit := modifyPoint (terminateWith t)

/-- Appends an instruction to any block, without a result and without a count of misuse. -/
def insert (id : BlockId) (i : Instr) : Build Unit := fun ⟨f, point⟩ =>
  match f.block? id with
  | some _ =>
    .ok () ⟨f.modifyBlock id fun b => { b with instrs := b.instrs.push i }, point⟩
  | none => .error .bounds ⟨f, point⟩

end Build

end MethodJit.IR
