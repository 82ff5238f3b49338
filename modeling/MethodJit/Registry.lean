import MethodJit.Code.Instruction
import MethodJit.Routine.Helper

/-!
# The registry

The registry tells how compiled code carries out an instruction: by which helper, with which
immediates, and whether pending values have to be in their places before. The helpers that belong to an
instruction have its name; some further helpers belong to none.
-/

namespace MethodJit

/-- How compiled code uses the routine of an instruction. -/
inductive Convention
  | unsupported
  /-- No single routine does it. -/
  | custom
  | frame
  | indexed
  | pair
  | supply
  | constant
  | unary
  | binary
  | test
  | compare
  | jump
deriving DecidableEq, Repr

namespace Convention

def name : Convention → String
  | .unsupported => "unsupported"
  | .custom => "custom"
  | .frame => "ctx"
  | .indexed => "ctx+imm"
  | .pair => "ctx+imm2"
  | .supply => "lazy ctx"
  | .constant => "lazy ctx+imm"
  | .unary => "ptr1"
  | .binary => "ptr2"
  | .test => "branch1"
  | .compare => "branch2"
  | .jump => "jump"

/-- The conventions in their order. -/
def all : List Convention :=
  [.unsupported, .custom, .frame, .indexed, .pair, .supply, .constant, .unary, .binary, .test,
    .compare, .jump]

/-- The signature of the routines of a convention. -/
def signature? : Convention → Option Signature
  | .unsupported | .custom => none
  | .frame => some ⟨[.context], .void⟩
  | .indexed | .jump => some ⟨[.context, .int], .void⟩
  | .pair => some ⟨[.context, .int, .int], .void⟩
  | .supply => some ⟨[.context], .object⟩
  | .constant => some ⟨[.context, .int], .object⟩
  | .unary => some ⟨[.object], .object⟩
  | .binary => some ⟨[.object, .object], .object⟩
  | .test => some ⟨[.object], .bool⟩
  | .compare => some ⟨[.object, .object], .bool⟩

/-- Whether the routine decides where to go on. -/
def branches : Convention → Bool
  | .test | .compare | .jump => true
  | _ => false

/-- Whether the routine gives its result instead of pushing it. -/
def givesResult : Convention → Bool
  | .supply | .constant | .unary | .binary => true
  | _ => false

end Convention

/-- The kinds of immediates. -/
inductive Immediate.Kind
  | none
  | name
  | int
  | uint
  | double
  | string
  | count
  | local
  | byte
deriving DecidableEq, Repr

/-- The number of a kind of immediate in the order of the kinds. -/
def Immediate.Kind.number : Immediate.Kind → Nat
  | .none => 0
  | .name => 1
  | .int => 2
  | .uint => 3
  | .double => 4
  | .string => 5
  | .count => 6
  | .local => 7
  | .byte => 8

def Constant.immediate : Constant → Immediate.Kind
  | .pushInt => .int
  | .pushUInt => .uint
  | .pushDouble => .double
  | .pushString => .string

namespace Action

def convention : Action → Convention
  | .none | .debug | .note | .pushByte | .pushShort | .pop | .dup | .swap | .getLocal | .getFixed _
  | .setLocal | .setFixed _ | .kill | .stepLocal _ | .returnVoid | .returnValue | .throw => .custom
  | .supply _ => .supply
  | .constant _ => .constant
  | .frame _ => .frame
  | .scopeObject | .named _ | .counted _ => .indexed
  | .namedCounted _ | .hasNext2 => .pair
  | .unary _ => .unary
  | .binary _ => .binary
  | .test _ => .test
  | .compare _ => .compare
  | .jump => .jump
  | .lookupSwitch | .unsupported => .unsupported

/-- The routine that does it, if a single one does. -/
def routine? : Action → Option Routine
  | .supply s => some (.supply s)
  | .constant c => some (.constant c)
  | .frame a => some (.frame a)
  | .scopeObject => some (.indexed .getScopeObject)
  | .named a | .counted a => some (.indexed a)
  | .namedCounted a => some (.pair a)
  | .hasNext2 => some (.pair .hasNext2)
  | .unary r => some (.unary r)
  | .binary r => some (.binary r)
  | .test t => some (.test t)
  | .compare c => some (.compare c)
  | .jump => some (.indexed .jump)
  | _ => Option.none

/-- The immediates that the routine gets. -/
def immediates : Action → Immediate.Kind × Immediate.Kind
  | .constant c => (c.immediate, .none)
  | .scopeObject => (.byte, .none)
  | .named _ => (.name, .none)
  | .counted _ => (.count, .none)
  | .namedCounted _ => (.name, .count)
  | .hasNext2 => (.local, .local)
  | _ => (.none, .none)

/-- Whether the routine may throw although it does not see the frame. -/
def throws : Action → Bool
  | .unary .convertO | .binary .instanceOf => true
  | _ => false

end Action

namespace Registry

/-- The helper of the instruction at a byte, if a single routine does it. -/
def helperOfByte? (b : UInt8) : Option Helper :=
  (actionOfByte b).routine?.map (Helper.ofRoutine (Opcode.nameOfByte b))

def boxInt : Helper := .ofRoutine "box_i" .box
def retain : Helper := .ofRoutine "incRef" (.effect .retain)
def release : Helper := .ofRoutine "decRef" (.effect .release)
def releaseBound : Helper := .ofRoutine "decRefSafe" (.effect .releaseBound)
def bitAndInts : Helper := .ofRoutine "bitand_ii" .bitAndInts
def bitAndMixed : Helper := .ofRoutine "bitand_oi" .bitAndMixed
def throwValue : Helper := .ofRoutine "throwValue" (.effect .throw)
def bindArguments : Helper := .ofRoutine "bindArguments" (.frame .bindArguments)

def shift : Shift → Helper
  | .left => .ofRoutine "lshift_io" (.shift .left)
  | .right => .ofRoutine "rshift_io" (.shift .right)
  | .unsignedRight => .ofRoutine "urshift_io" (.shift .unsignedRight)

/-- The helpers that belong to no instruction. -/
def auxiliaries : List Helper :=
  [boxInt, retain, release, releaseBound, bitAndInts, bitAndMixed, shift .left, shift .right,
    shift .unsignedRight, throwValue, bindArguments]

/-- All bytes in their order. -/
def bytes : List UInt8 := (List.range 256).map UInt8.ofNat

/-- All helpers. -/
def helpers : List Helper := bytes.filterMap helperOfByte? ++ auxiliaries

def table : HelperTable := ⟨helpers, true⟩

end Registry

end MethodJit
