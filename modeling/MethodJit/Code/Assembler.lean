import MethodJit.Code.Immediate
import MethodJit.Code.Opcode
import MethodJit.Method.Basic
import MethodJit.Text.Quoted

/-!
# Assembler

Code is written step by step. References to labels are written as zeros and filled in at the end,
relative to the end of a branch and to the start of a switch.
-/

namespace MethodJit

/-- A reference to a label: where it stands, and where its distance starts. -/
structure Fixup where
  position : Nat
  base : Nat
  label : String
deriving DecidableEq, Repr

inductive AssemblyFault
  | duplicateLabel (label : String)
  | undefinedLabel (label : String)
deriving DecidableEq, Repr

def AssemblyFault.message : AssemblyFault → String
  | .duplicateLabel label => "duplicate label " ++ Text.quote label
  | .undefinedLabel label => "undefined label " ++ Text.quote label

structure Assembler where
  code : Array UInt8 := #[]
  labels : List (String × Nat) := []
  fixups : Array Fixup := #[]
deriving Repr

namespace Assembler

inductive Step
  | op (byte : UInt8) (immediates : List UInt32)
  | raw (bytes : List UInt8)
  | pushByte (x : Int8)
  | pushShort (x : Int16)
  | mark (label : String)
  | label (label : String)
  | branch (byte : UInt8) (label : String)
  | branchOffset (byte : UInt8) (offset : Int32)
  | switch (default : String) (cases : List String)
deriving Repr

def emit (a : Assembler) (bytes : List UInt8) : Assembler :=
  { a with code := a.code ++ bytes }

/-- A field of three bytes that will hold the distance from `base` to a label. -/
def reference (a : Assembler) (base : Nat) (label : String) : Assembler :=
  { a with fixups := a.fixups.push ⟨a.code.size, base, label⟩ }.emit [0, 0, 0]

def mark (a : Assembler) (label : String) : Except AssemblyFault Assembler :=
  if (a.labels.lookup label).isSome then throw (.duplicateLabel label)
  else pure { a with labels := (label, a.code.size) :: a.labels }

def step (a : Assembler) : Step → Except AssemblyFault Assembler
  | .op byte immediates => pure (a.emit (byte :: immediates.flatMap Immediate.encodeU32))
  | .raw bytes => pure (a.emit bytes)
  | .pushByte x => pure (a.emit [Opcode.pushByte.byte, x.toUInt8])
  | .pushShort x => pure (a.emit (Opcode.pushShort.byte :: Immediate.encodeU32 x.toUInt16.toUInt32))
  | .mark label => a.mark label
  | .label label => do pure ((← a.mark label).emit [Opcode.label.byte])
  | .branch byte label =>
    let a := a.emit [byte]
    pure (a.reference (a.code.size + 3) label)
  | .branchOffset byte offset => pure (a.emit (byte :: Immediate.encodeS24 offset))
  | .switch default cases =>
    let base := a.code.size
    let a := (a.emit [Opcode.lookupSwitch.byte]).reference base default
    let a := a.emit (Immediate.encodeU32 (.ofNat cases.length - 1))
    pure (cases.foldl (fun a label => a.reference base label) a)

/-- Puts bytes in place of those that stand at a position. -/
def overwrite (code : Array UInt8) : Nat → List UInt8 → Array UInt8
  | _, [] => code
  | i, b :: bs => overwrite (code.setIfInBounds i b) (i + 1) bs

def resolve (labels : List (String × Nat)) (code : Array UInt8) (f : Fixup) :
    Except AssemblyFault (Array UInt8) :=
  match labels.lookup f.label with
  | none => throw (.undefinedLabel f.label)
  | some target =>
    pure (overwrite code f.position (Immediate.encodeS24 (.ofInt ((target : Int) - f.base))))

/-- The code with every reference filled in. -/
def finish (a : Assembler) : Except AssemblyFault (Array UInt8) :=
  a.fixups.foldlM (resolve a.labels) a.code

def assemble (steps : List Step) : Except AssemblyFault (Array UInt8) := do
  (← steps.foldlM step {}).finish

/-- The method with the assembled code, `params` parameters and `extra` further locals. -/
def method (name : String) (params extra maxStack : Int64) (steps : List Step) :
    Except AssemblyFault Method := do
  let code ← assemble steps
  pure {
    name, params, maxStack
    locals := 1 + params + extra
    code := if code.isEmpty then none else some code
    pool := some {} }

end Assembler

end MethodJit
