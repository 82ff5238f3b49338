import MethodJit.IR.Verify

/-!
# Programs

A function that passes verification is lowered to a program, whose steps name registers and routines
directly. The register of a value has the value's number.
-/

namespace MethodJit.IR

/-- Why a function cannot be lowered. -/
inductive LowerFault
  | noBlocks (name : String)
  | problems (ps : List Problem)
  | unboundHelper (block helper : String)
  | tooManyArgs (block helper : String) (n : Nat)
  | cannotLower (block : String) (op : Op)
deriving DecidableEq, Repr

/-- A list of problems as one text. -/
def problemsText (ps : List Problem) : String :=
  let n := ps.length
  let head := if n = 1 then "1 error occurred:" else s!"{n} errors occurred:"
  head ++ String.join (ps.map fun p => "\n\t* " ++ p.message) ++ "\n\n"

def LowerFault.message : LowerFault → String
  | .noBlocks name => (Problem.noBlocks name).message
  | .problems ps => problemsText ps
  | .unboundHelper block helper => "block " ++ block ++ ": helper " ++ helper ++ " is not bound"
  | .tooManyArgs block helper n =>
    "block " ++ block ++ ": helper " ++ helper ++ s!" takes {n} arguments"
  | .cannotLower block op => "block " ++ block ++ ": cannot lower " ++ op.name

/-- What programs do between jumps. -/
inductive Step
  | const (result : ValueId) (n : Int64)
  | loadLocals (result frame : ValueId)
  | loadStack (result frame : ValueId)
  | loadIndex (result frame : ValueId)
  | storeLocals (frame x : ValueId)
  | storeStack (frame x : ValueId)
  | storeIndex (frame x : ValueId)
  | loadElem (result area index : ValueId)
  | storeElem (area index x : ValueId)
  | add (result x y : ValueId)
  | call (result : ValueId) (r : Routine) (args : List ValueId)
deriving DecidableEq, Repr

/-- How programs leave a block. -/
inductive Exit
  | jump (target : Nat)
  | branch (condition : ValueId) (taken notTaken : Nat)
  | ret (v : ValueId)
  | retVoid
  | trap (t : Trap)
deriving DecidableEq, Repr

structure ProgramBlock where
  steps : List Step
  exit : Exit
deriving DecidableEq, Repr

structure Program where
  registers : Nat
  blocks : Array ProgramBlock
deriving Repr

/-- The number of words that a routine can be given. -/
def maxArgs : Nat := 3

/-- The step of an instruction in a block. -/
def lowerInstr (block : String) (i : Instr) : Except LowerFault Step :=
  match i.op, i.args, i.field, i.helper with
  | .constInt, _, _, _ => .ok (.const i.result i.constant)
  | .loadField, [f], .locals, _ => .ok (.loadLocals i.result f)
  | .loadField, [f], .stack, _ => .ok (.loadStack i.result f)
  | .loadField, [f], .stackIndex, _ => .ok (.loadIndex i.result f)
  | .storeField, [f, x], .locals, _ => .ok (.storeLocals f x)
  | .storeField, [f, x], .stack, _ => .ok (.storeStack f x)
  | .storeField, [f, x], .stackIndex, _ => .ok (.storeIndex f x)
  | .loadElem, [s, j], _, _ => .ok (.loadElem i.result s j)
  | .storeElem, [s, j, x], _, _ => .ok (.storeElem s j x)
  | .addInt, [x, y], _, _ => .ok (.add i.result x y)
  | .call, args, _, some h =>
    match h.routine with
    | none => .error (.unboundHelper block h.name)
    | some r =>
      if maxArgs < args.length then .error (.tooManyArgs block h.name args.length)
      else .ok (.call i.result r args)
  | op, _, _, _ => .error (.cannotLower block op)

def lowerTerm : Term → Exit
  | .br target => .jump target.toNat
  | .condBr v taken notTaken => .branch v taken.toNat notTaken.toNat
  | .ret v => .ret v
  | .retVoid => .retVoid
  | .trap t => .trap t
  | .none | .unreachable => .trap ⟨.unreachable, 0, 0⟩

def lowerBlock (b : Block) : Except LowerFault ProgramBlock := do
  let steps ← b.instrs.toList.mapM (lowerInstr b.name)
  pure ⟨steps, lowerTerm b.term⟩

/-- Lowers a function if it is valid and all its helpers are bound. -/
def Function.lower (f : Function) : Except LowerFault Program :=
  if f.blocks.isEmpty then .error (.noBlocks f.name)
  else match f.problems with
    | [] => do
      let blocks ← f.blocks.toList.mapM lowerBlock
      pure ⟨f.numValues, blocks.toArray⟩
    | ps => .error (.problems ps)

end MethodJit.IR
