import MethodJit.Code.Cursor
import MethodJit.Code.Opcode

/-!
# Layouts of instructions

The layout of an instruction says which immediates follow its byte. It is known for all instructions,
also for those that are not supported.
-/

namespace MethodJit

inductive Layout
  | plain
  | byte
  | number
  | twoNumbers
  /-- The distance of a branch. -/
  | distance
  /-- A byte, a number, a byte and a number. -/
  | debug
  /-- A distance, a count, and one more distances than the count. -/
  | switch
deriving DecidableEq, Repr

def Opcode.layout : Opcode → Layout
  | .pushByte | .getScopeObject => .byte
  | .getSuper | .setSuper | .dxns | .kill | .pushShort | .pushString | .pushInt | .pushUInt
  | .pushDouble | .pushNamespace | .newFunction | .call | .construct | .constructSuper | .newObject
  | .newArray | .newClass | .getDescendants | .newCatch | .findPropStrict | .findProperty | .getLex
  | .setProperty | .getProperty | .initProperty | .deleteProperty | .getLocal | .setLocal | .getSlot
  | .setSlot | .getGlobalSlot | .setGlobalSlot | .coerce | .asType | .isType | .applyType | .incLocal
  | .decLocal | .incLocalI | .decLocalI | .debugLine | .debugFile | .bkptLine => .number
  | .hasNext2 | .callMethod | .callStatic | .callSuper | .callSuperVoid | .callProperty | .callPropLex
  | .callPropVoid | .constructProp => .twoNumbers
  | .jump | .ifTrue | .ifFalse | .ifEq | .ifNe | .ifLT | .ifLE | .ifGT | .ifGE | .ifNLT | .ifNLE
  | .ifNGT | .ifNGE | .ifStrictEq | .ifStrictNe => .distance
  | .debug => .debug
  | .lookupSwitch => .switch
  | _ => .plain

/-- The greatest count of a switch. -/
def maxSwitchCases : Nat := 0x100000

/-- A given number of distances. -/
def readDistances : Nat → Cursor.Read (List Int)
  | 0 => pure []
  | n + 1 => do
    let d ← Cursor.s24
    pure (d :: (← readDistances n))

/-- The default distance of a switch and the distances of its cases. -/
def readSwitch : Cursor.Read (Int × List Int) := do
  let fallback ← Cursor.s24
  let n ← Cursor.count "lookupswitch case" maxSwitchCases
  pure (fallback, ← readDistances (n + 1))

/-- Reads past the immediates of a layout. -/
def Layout.skip : Layout → Cursor.Read Unit
  | .plain => pure ()
  | .byte => do
    let _ ← Cursor.byte
  | .number => do
    let _ ← Cursor.u30
  | .twoNumbers => do
    let _ ← Cursor.u30
    let _ ← Cursor.u30
  | .distance => do
    let _ ← Cursor.s24
  | .debug => do
    let _ ← Cursor.byte
    let _ ← Cursor.u30
    let _ ← Cursor.byte
    let _ ← Cursor.u30
  | .switch => do
    let _ ← readSwitch

/-- Reads past an instruction whose byte has been read. -/
def skipInstruction (b : UInt8) : Cursor.Read Unit :=
  match Opcode.ofByte? b with
  | some op => op.layout.skip
  | none => throw (.unknownOpcode b)

end MethodJit
