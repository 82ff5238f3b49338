import MethodJit.IR.Basic

/-!
# Verification of functions

`Function.problems` lists what is wrong with the structure of a function: missing or repeated
terminators, operands of a wrong number or type, and targets that do not exist.
-/

namespace MethodJit.IR

/-- What is wrong with an instruction or a terminator. -/
inductive OperandProblem
  | count (found expected : Nat)
  | type (position : Nat) (v : ValueId) (found expected : Ty)
  | noHelper
  | unknownOp
  | noTarget (id : BlockId)
deriving DecidableEq, Repr

def OperandProblem.message : OperandProblem → String
  | .count found expected => s!"{found} operands, expected {expected}"
  | .type position v found expected =>
    s!"operand {position} is " ++ valueName v ++ " " ++ found.name ++ ", expected " ++ expected.name
  | .noHelper => "no helper"
  | .unknownOp => "unknown operation"
  | .noTarget id => s!"target {id} does not exist"

/-- What is wrong with a block. -/
inductive BlockProblem
  | noTerminator
  | terminators (n : Nat)
  | afterTerminator (n : Nat)
  | instr (position : Nat) (op : Op) (p : OperandProblem)
  | term (t : Term) (p : OperandProblem)
deriving DecidableEq, Repr

def BlockProblem.message : BlockProblem → String
  | .noTerminator => "no terminator"
  | .terminators n => s!"{n} terminators"
  | .afterTerminator n => s!"{n} instructions after terminator"
  | .instr position op p => s!"instruction {position} (" ++ op.name ++ "): " ++ p.message
  | .term t p => t.name ++ ": " ++ p.message

/-- What is wrong with a function. -/
inductive Problem
  | noBlocks (name : String)
  | block (name : String) (p : BlockProblem)
deriving DecidableEq, Repr

def Problem.message : Problem → String
  | .noBlocks name => "function " ++ name ++ " has no blocks"
  | .block name p => "block " ++ name ++ ": " ++ p.message

namespace Function

/-- Checks the types of operands from a position on. -/
def checkTypes (f : Function) : Nat → List ValueId → List Ty → List OperandProblem
  | i, v :: vs, t :: ts =>
    let rest := f.checkTypes (i + 1) vs ts
    if f.typeOf v = t then rest else .type i v (f.typeOf v) t :: rest
  | _, _, _ => []

/-- Checks the number and the types of operands. -/
def checkOperands (f : Function) (args : List ValueId) (types : List Ty) : List OperandProblem :=
  if args.length = types.length then f.checkTypes 0 args types
  else [.count args.length types.length]

def checkInstr (f : Function) (i : Instr) : List OperandProblem :=
  match i.op with
  | .constInt => f.checkOperands i.args []
  | .loadField => f.checkOperands i.args [.context]
  | .storeField => f.checkOperands i.args [.context, i.field.type]
  | .loadElem => f.checkOperands i.args [.slice, .int]
  | .storeElem => f.checkOperands i.args [.slice, .int, .object]
  | .addInt => f.checkOperands i.args [.int, .int]
  | .call =>
    match i.helper with
    | some h => f.checkOperands i.args h.signature.params
    | none => [.noHelper]
  | .other _ => [.unknownOp]

/-- Checks that the targets exist. -/
def checkTargets (f : Function) (ids : List BlockId) : List OperandProblem :=
  (ids.filter fun id => (f.block? id).isNone).map .noTarget

def checkTerm (f : Function) : Term → List OperandProblem
  | .br target => f.checkTargets [target]
  | .condBr condition taken notTaken =>
    f.checkOperands [condition] [.bool] ++ f.checkTargets [taken, notTaken]
  | .ret v => f.checkOperands [v] [.object]
  | _ => []

def checkInstrs (f : Function) : Nat → List Instr → List BlockProblem
  | _, [] => []
  | n, i :: is => (f.checkInstr i).map (.instr n i.op) ++ f.checkInstrs (n + 1) is

def checkBlock (f : Function) (b : Block) : List BlockProblem :=
  (if b.terms = 0 then [.noTerminator] else if b.terms = 1 then [] else [.terminators b.terms]) ++
  (if b.afterTerms = 0 then [] else [.afterTerminator b.afterTerms]) ++
  f.checkInstrs 0 b.instrs.toList ++
  (if b.terms = 0 then [] else (f.checkTerm b.term).map (.term b.term))

/-- All that is wrong with a function. -/
def problems (f : Function) : List Problem :=
  if f.blocks.isEmpty then [.noBlocks f.name]
  else f.blocks.toList.flatMap fun b => (f.checkBlock b).map (.block b.name)

end Function

end MethodJit.IR
