import MethodJit.Code.Opcode
import MethodJit.Routine.Context

/-!
# What instructions do

`Opcode.action` classifies the instructions by the routine that carries them out and by the immediates
they have. Instructions without a class are not supported.
-/

namespace MethodJit

inductive Action
  /-- Nothing. -/
  | none
  /-- A byte, a number, a byte and a number without effect. -/
  | debug
  /-- A number without effect. -/
  | note
  /-- Pushes a signed byte. -/
  | pushByte
  /-- Pushes the low 16 bits of a number, with their sign. -/
  | pushShort
  | pop
  | dup
  | swap
  | getLocal
  | getFixed (i : Nat)
  | setLocal
  | setFixed (i : Nat)
  /-- Makes a local undefined. -/
  | kill
  /-- Replaces a local by what a routine makes of it. -/
  | stepLocal (r : Unary)
  | returnVoid
  | returnValue
  | throw
  | supply (s : Supply)
  | constant (c : Constant)
  | frame (a : FrameAction)
  /-- Pushes the scope at a position given by a byte. -/
  | scopeObject
  /-- A routine with the index of a name. -/
  | named (a : IndexedAction)
  /-- A routine with a count of operands. -/
  | counted (a : IndexedAction)
  /-- A routine with the index of a name and a count of operands. -/
  | namedCounted (a : PairAction)
  /-- Moves an enumeration held in two locals. -/
  | hasNext2
  | unary (r : Unary)
  | binary (r : Binary)
  | test (t : Test)
  | compare (c : Comparison)
  | jump
  | lookupSwitch
  | unsupported
deriving DecidableEq, Repr

def Opcode.action : Opcode → Action
  | .nop | .label => .none
  | .debug => .debug
  | .debugLine | .debugFile => .note
  | .pushByte => .pushByte
  | .pushShort => .pushShort
  | .pop => .pop
  | .dup => .dup
  | .swap => .swap
  | .getLocal => .getLocal
  | .getLocal0 => .getFixed 0
  | .getLocal1 => .getFixed 1
  | .getLocal2 => .getFixed 2
  | .getLocal3 => .getFixed 3
  | .setLocal => .setLocal
  | .setLocal0 => .setFixed 0
  | .setLocal1 => .setFixed 1
  | .setLocal2 => .setFixed 2
  | .setLocal3 => .setFixed 3
  | .kill => .kill
  | .incLocal => .stepLocal .increment
  | .decLocal => .stepLocal .decrement
  | .incLocalI => .stepLocal .incrementI
  | .decLocalI => .stepLocal .decrementI
  | .returnVoid => .returnVoid
  | .returnValue => .returnValue
  | .throw => .throw
  | .pushNull => .supply .pushNull
  | .pushUndefined => .supply .pushUndefined
  | .pushTrue => .supply .pushTrue
  | .pushFalse => .supply .pushFalse
  | .pushNaN => .supply .pushNaN
  | .getGlobalScope => .supply .getGlobalScope
  | .pushInt => .constant .pushInt
  | .pushUInt => .constant .pushUInt
  | .pushDouble => .constant .pushDouble
  | .pushString => .constant .pushString
  | .pushScope => .frame .pushScope
  | .popScope => .frame .popScope
  | .pushWith => .frame .pushWith
  | .getScopeObject => .scopeObject
  | .findPropStrict => .named .findPropStrict
  | .findProperty => .named .findProperty
  | .getLex => .named .getLex
  | .getProperty => .named .getProperty
  | .setProperty => .named .setProperty
  | .initProperty => .named .initProperty
  | .deleteProperty => .named .deleteProperty
  | .call => .counted .call
  | .construct => .counted .construct
  | .newObject => .counted .newObject
  | .newArray => .counted .newArray
  | .callProperty => .namedCounted .callProperty
  | .callPropLex => .namedCounted .callPropLex
  | .callPropVoid => .namedCounted .callPropVoid
  | .constructProp => .namedCounted .constructProp
  | .hasNext2 => .hasNext2
  | .convertS => .unary .convertS
  | .convertI | .coerceI => .unary .convertI
  | .convertU | .coerceU => .unary .convertU
  | .convertD | .coerceD => .unary .convertD
  | .convertB | .coerceB => .unary .convertB
  | .convertO => .unary .convertO
  | .coerceA => .unary .coerceA
  | .coerceS => .unary .coerceS
  | .coerceO => .unary .coerceO
  | .negate => .unary .negate
  | .negateI => .unary .negateI
  | .increment => .unary .increment
  | .incrementI => .unary .incrementI
  | .decrement => .unary .decrement
  | .decrementI => .unary .decrementI
  | .typeOf => .unary .typeOf
  | .not => .unary .not
  | .bitNot => .unary .bitNot
  | .add => .binary .add
  | .addI => .binary .addI
  | .subtract => .binary .subtract
  | .subtractI => .binary .subtractI
  | .multiply => .binary .multiply
  | .multiplyI => .binary .multiplyI
  | .divide => .binary .divide
  | .modulo => .binary .modulo
  | .lShift => .binary .lShift
  | .rShift => .binary .rShift
  | .uRShift => .binary .uRShift
  | .bitAnd => .binary .bitAnd
  | .bitOr => .binary .bitOr
  | .bitXor => .binary .bitXor
  | .equals => .binary .equals
  | .strictEquals => .binary .strictEquals
  | .lessThan => .binary .lessThan
  | .lessEquals => .binary .lessEquals
  | .greaterThan => .binary .greaterThan
  | .greaterEquals => .binary .greaterEquals
  | .inObject => .binary .inObject
  | .instanceOf => .binary .instanceOf
  | .nextName => .binary .nextName
  | .nextValue => .binary .nextValue
  | .ifTrue => .test .ifTrue
  | .ifFalse => .test .ifFalse
  | .ifEq => .compare .ifEq
  | .ifNe => .compare .ifNe
  | .ifLT => .compare .ifLT
  | .ifNLT => .compare .ifNLT
  | .ifLE => .compare .ifLE
  | .ifNLE => .compare .ifNLE
  | .ifGT => .compare .ifGT
  | .ifNGT => .compare .ifNGT
  | .ifGE => .compare .ifGE
  | .ifNGE => .compare .ifNGE
  | .ifStrictEq => .compare .ifStrictEq
  | .ifStrictNe => .compare .ifStrictNe
  | .jump => .jump
  | .lookupSwitch => .lookupSwitch
  | _ => .unsupported

/-- The action of the instruction at a byte. -/
def actionOfByte (b : UInt8) : Action :=
  match Opcode.ofByte? b with
  | some op => op.action
  | none => .unsupported

/-- The instruction that applies a routine to the topmost operand. -/
def Unary.opcode : Unary → Opcode
  | .convertS => .convertS
  | .convertI => .convertI
  | .convertU => .convertU
  | .convertD => .convertD
  | .convertB => .convertB
  | .convertO => .convertO
  | .coerceA => .coerceA
  | .coerceS => .coerceS
  | .coerceO => .coerceO
  | .negate => .negate
  | .negateI => .negateI
  | .increment => .increment
  | .incrementI => .incrementI
  | .decrement => .decrement
  | .decrementI => .decrementI
  | .typeOf => .typeOf
  | .not => .not
  | .bitNot => .bitNot

/-- The low 16 bits of a number, with their sign. -/
def signExtend16 (n : Nat) : Int32 := (Int16.ofNat n).toInt32

/-- A byte as a signed number. -/
def signExtend8 (n : Nat) : Int32 := (Int8.ofNat n).toInt32

end MethodJit
