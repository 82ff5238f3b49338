import MethodJit.Text.Hex

/-!
# Instructions

The instructions of the bytecode, with their byte and their mnemonic. `Opcode.ofByte?` and
`Opcode.byte` are inverse to each other. A byte without an instruction is named by its value.
-/

namespace MethodJit

inductive Opcode
  | bkpt
  | nop
  | throw
  | getSuper
  | setSuper
  | dxns
  | dxnsLate
  | kill
  | label
  | ifNLT
  | ifNLE
  | ifNGT
  | ifNGE
  | jump
  | ifTrue
  | ifFalse
  | ifEq
  | ifNe
  | ifLT
  | ifLE
  | ifGT
  | ifGE
  | ifStrictEq
  | ifStrictNe
  | lookupSwitch
  | pushWith
  | popScope
  | nextName
  | hasNext
  | pushNull
  | pushUndefined
  | nextValue
  | pushByte
  | pushShort
  | pushTrue
  | pushFalse
  | pushNaN
  | pop
  | dup
  | swap
  | pushString
  | pushInt
  | pushUInt
  | pushDouble
  | pushScope
  | pushNamespace
  | hasNext2
  | newFunction
  | call
  | construct
  | callMethod
  | callStatic
  | callSuper
  | callProperty
  | returnVoid
  | returnValue
  | constructSuper
  | constructProp
  | callPropLex
  | callSuperVoid
  | callPropVoid
  | applyType
  | newObject
  | newArray
  | newActivation
  | newClass
  | getDescendants
  | newCatch
  | findPropStrict
  | findProperty
  | getLex
  | setProperty
  | getLocal
  | setLocal
  | getGlobalScope
  | getScopeObject
  | getProperty
  | initProperty
  | deleteProperty
  | getSlot
  | setSlot
  | getGlobalSlot
  | setGlobalSlot
  | convertS
  | escXElem
  | escXAttr
  | convertI
  | convertU
  | convertD
  | convertB
  | convertO
  | checkFilter
  | coerce
  | coerceB
  | coerceA
  | coerceI
  | coerceD
  | coerceS
  | asType
  | asTypeLate
  | coerceU
  | coerceO
  | negate
  | increment
  | incLocal
  | decrement
  | decLocal
  | typeOf
  | not
  | bitNot
  | add
  | subtract
  | multiply
  | divide
  | modulo
  | lShift
  | rShift
  | uRShift
  | bitAnd
  | bitOr
  | bitXor
  | equals
  | strictEquals
  | lessThan
  | lessEquals
  | greaterThan
  | greaterEquals
  | instanceOf
  | isType
  | isTypeLate
  | inObject
  | incrementI
  | decrementI
  | incLocalI
  | decLocalI
  | negateI
  | addI
  | subtractI
  | multiplyI
  | getLocal0
  | getLocal1
  | getLocal2
  | getLocal3
  | setLocal0
  | setLocal1
  | setLocal2
  | setLocal3
  | debug
  | debugLine
  | debugFile
  | bkptLine
  | timestamp
deriving DecidableEq, Repr

namespace Opcode

/-- The byte that stands for an instruction. -/
def byte : Opcode → UInt8
  | .bkpt => 0x01
  | .nop => 0x02
  | .throw => 0x03
  | .getSuper => 0x04
  | .setSuper => 0x05
  | .dxns => 0x06
  | .dxnsLate => 0x07
  | .kill => 0x08
  | .label => 0x09
  | .ifNLT => 0x0c
  | .ifNLE => 0x0d
  | .ifNGT => 0x0e
  | .ifNGE => 0x0f
  | .jump => 0x10
  | .ifTrue => 0x11
  | .ifFalse => 0x12
  | .ifEq => 0x13
  | .ifNe => 0x14
  | .ifLT => 0x15
  | .ifLE => 0x16
  | .ifGT => 0x17
  | .ifGE => 0x18
  | .ifStrictEq => 0x19
  | .ifStrictNe => 0x1a
  | .lookupSwitch => 0x1b
  | .pushWith => 0x1c
  | .popScope => 0x1d
  | .nextName => 0x1e
  | .hasNext => 0x1f
  | .pushNull => 0x20
  | .pushUndefined => 0x21
  | .nextValue => 0x23
  | .pushByte => 0x24
  | .pushShort => 0x25
  | .pushTrue => 0x26
  | .pushFalse => 0x27
  | .pushNaN => 0x28
  | .pop => 0x29
  | .dup => 0x2a
  | .swap => 0x2b
  | .pushString => 0x2c
  | .pushInt => 0x2d
  | .pushUInt => 0x2e
  | .pushDouble => 0x2f
  | .pushScope => 0x30
  | .pushNamespace => 0x31
  | .hasNext2 => 0x32
  | .newFunction => 0x40
  | .call => 0x41
  | .construct => 0x42
  | .callMethod => 0x43
  | .callStatic => 0x44
  | .callSuper => 0x45
  | .callProperty => 0x46
  | .returnVoid => 0x47
  | .returnValue => 0x48
  | .constructSuper => 0x49
  | .constructProp => 0x4a
  | .callPropLex => 0x4c
  | .callSuperVoid => 0x4e
  | .callPropVoid => 0x4f
  | .applyType => 0x53
  | .newObject => 0x55
  | .newArray => 0x56
  | .newActivation => 0x57
  | .newClass => 0x58
  | .getDescendants => 0x59
  | .newCatch => 0x5a
  | .findPropStrict => 0x5d
  | .findProperty => 0x5e
  | .getLex => 0x60
  | .setProperty => 0x61
  | .getLocal => 0x62
  | .setLocal => 0x63
  | .getGlobalScope => 0x64
  | .getScopeObject => 0x65
  | .getProperty => 0x66
  | .initProperty => 0x68
  | .deleteProperty => 0x6a
  | .getSlot => 0x6c
  | .setSlot => 0x6d
  | .getGlobalSlot => 0x6e
  | .setGlobalSlot => 0x6f
  | .convertS => 0x70
  | .escXElem => 0x71
  | .escXAttr => 0x72
  | .convertI => 0x73
  | .convertU => 0x74
  | .convertD => 0x75
  | .convertB => 0x76
  | .convertO => 0x77
  | .checkFilter => 0x78
  | .coerce => 0x80
  | .coerceB => 0x81
  | .coerceA => 0x82
  | .coerceI => 0x83
  | .coerceD => 0x84
  | .coerceS => 0x85
  | .asType => 0x86
  | .asTypeLate => 0x87
  | .coerceU => 0x88
  | .coerceO => 0x89
  | .negate => 0x90
  | .increment => 0x91
  | .incLocal => 0x92
  | .decrement => 0x93
  | .decLocal => 0x94
  | .typeOf => 0x95
  | .not => 0x96
  | .bitNot => 0x97
  | .add => 0xa0
  | .subtract => 0xa1
  | .multiply => 0xa2
  | .divide => 0xa3
  | .modulo => 0xa4
  | .lShift => 0xa5
  | .rShift => 0xa6
  | .uRShift => 0xa7
  | .bitAnd => 0xa8
  | .bitOr => 0xa9
  | .bitXor => 0xaa
  | .equals => 0xab
  | .strictEquals => 0xac
  | .lessThan => 0xad
  | .lessEquals => 0xae
  | .greaterThan => 0xaf
  | .greaterEquals => 0xb0
  | .instanceOf => 0xb1
  | .isType => 0xb2
  | .isTypeLate => 0xb3
  | .inObject => 0xb4
  | .incrementI => 0xc0
  | .decrementI => 0xc1
  | .incLocalI => 0xc2
  | .decLocalI => 0xc3
  | .negateI => 0xc4
  | .addI => 0xc5
  | .subtractI => 0xc6
  | .multiplyI => 0xc7
  | .getLocal0 => 0xd0
  | .getLocal1 => 0xd1
  | .getLocal2 => 0xd2
  | .getLocal3 => 0xd3
  | .setLocal0 => 0xd4
  | .setLocal1 => 0xd5
  | .setLocal2 => 0xd6
  | .setLocal3 => 0xd7
  | .debug => 0xef
  | .debugLine => 0xf0
  | .debugFile => 0xf1
  | .bkptLine => 0xf2
  | .timestamp => 0xf3

/-- The mnemonic of an instruction. -/
def name : Opcode → String
  | .bkpt => "bkpt"
  | .nop => "nop"
  | .throw => "throw"
  | .getSuper => "getsuper"
  | .setSuper => "setsuper"
  | .dxns => "dxns"
  | .dxnsLate => "dxnslate"
  | .kill => "kill"
  | .label => "label"
  | .ifNLT => "ifnlt"
  | .ifNLE => "ifnle"
  | .ifNGT => "ifngt"
  | .ifNGE => "ifnge"
  | .jump => "jump"
  | .ifTrue => "iftrue"
  | .ifFalse => "iffalse"
  | .ifEq => "ifeq"
  | .ifNe => "ifne"
  | .ifLT => "iflt"
  | .ifLE => "ifle"
  | .ifGT => "ifgt"
  | .ifGE => "ifge"
  | .ifStrictEq => "ifstricteq"
  | .ifStrictNe => "ifstrictne"
  | .lookupSwitch => "lookupswitch"
  | .pushWith => "pushwith"
  | .popScope => "popscope"
  | .nextName => "nextname"
  | .hasNext => "hasnext"
  | .pushNull => "pushnull"
  | .pushUndefined => "pushundefined"
  | .nextValue => "nextvalue"
  | .pushByte => "pushbyte"
  | .pushShort => "pushshort"
  | .pushTrue => "pushtrue"
  | .pushFalse => "pushfalse"
  | .pushNaN => "pushnan"
  | .pop => "pop"
  | .dup => "dup"
  | .swap => "swap"
  | .pushString => "pushstring"
  | .pushInt => "pushint"
  | .pushUInt => "pushuint"
  | .pushDouble => "pushdouble"
  | .pushScope => "pushscope"
  | .pushNamespace => "pushnamespace"
  | .hasNext2 => "hasnext2"
  | .newFunction => "newfunction"
  | .call => "call"
  | .construct => "construct"
  | .callMethod => "callmethod"
  | .callStatic => "callstatic"
  | .callSuper => "callsuper"
  | .callProperty => "callproperty"
  | .returnVoid => "returnvoid"
  | .returnValue => "returnvalue"
  | .constructSuper => "constructsuper"
  | .constructProp => "constructprop"
  | .callPropLex => "callproplex"
  | .callSuperVoid => "callsupervoid"
  | .callPropVoid => "callpropvoid"
  | .applyType => "applytype"
  | .newObject => "newobject"
  | .newArray => "newarray"
  | .newActivation => "newactivation"
  | .newClass => "newclass"
  | .getDescendants => "getdescendants"
  | .newCatch => "newcatch"
  | .findPropStrict => "findpropstrict"
  | .findProperty => "findproperty"
  | .getLex => "getlex"
  | .setProperty => "setproperty"
  | .getLocal => "getlocal"
  | .setLocal => "setlocal"
  | .getGlobalScope => "getglobalscope"
  | .getScopeObject => "getscopeobject"
  | .getProperty => "getproperty"
  | .initProperty => "initproperty"
  | .deleteProperty => "deleteproperty"
  | .getSlot => "getslot"
  | .setSlot => "setslot"
  | .getGlobalSlot => "getglobalslot"
  | .setGlobalSlot => "setglobalslot"
  | .convertS => "convert_s"
  | .escXElem => "esc_xelem"
  | .escXAttr => "esc_xattr"
  | .convertI => "convert_i"
  | .convertU => "convert_u"
  | .convertD => "convert_d"
  | .convertB => "convert_b"
  | .convertO => "convert_o"
  | .checkFilter => "checkfilter"
  | .coerce => "coerce"
  | .coerceB => "coerce_b"
  | .coerceA => "coerce_a"
  | .coerceI => "coerce_i"
  | .coerceD => "coerce_d"
  | .coerceS => "coerce_s"
  | .asType => "astype"
  | .asTypeLate => "astypelate"
  | .coerceU => "coerce_u"
  | .coerceO => "coerce_o"
  | .negate => "negate"
  | .increment => "increment"
  | .incLocal => "inclocal"
  | .decrement => "decrement"
  | .decLocal => "declocal"
  | .typeOf => "typeof"
  | .not => "not"
  | .bitNot => "bitnot"
  | .add => "add"
  | .subtract => "subtract"
  | .multiply => "multiply"
  | .divide => "divide"
  | .modulo => "modulo"
  | .lShift => "lshift"
  | .rShift => "rshift"
  | .uRShift => "urshift"
  | .bitAnd => "bitand"
  | .bitOr => "bitor"
  | .bitXor => "bitxor"
  | .equals => "equals"
  | .strictEquals => "strictequals"
  | .lessThan => "lessthan"
  | .lessEquals => "lessequals"
  | .greaterThan => "greaterthan"
  | .greaterEquals => "greaterequals"
  | .instanceOf => "instanceof"
  | .isType => "istype"
  | .isTypeLate => "istypelate"
  | .inObject => "in"
  | .incrementI => "increment_i"
  | .decrementI => "decrement_i"
  | .incLocalI => "inclocal_i"
  | .decLocalI => "declocal_i"
  | .negateI => "negate_i"
  | .addI => "add_i"
  | .subtractI => "subtract_i"
  | .multiplyI => "multiply_i"
  | .getLocal0 => "getlocal_0"
  | .getLocal1 => "getlocal_1"
  | .getLocal2 => "getlocal_2"
  | .getLocal3 => "getlocal_3"
  | .setLocal0 => "setlocal_0"
  | .setLocal1 => "setlocal_1"
  | .setLocal2 => "setlocal_2"
  | .setLocal3 => "setlocal_3"
  | .debug => "debug"
  | .debugLine => "debugline"
  | .debugFile => "debugfile"
  | .bkptLine => "bkptline"
  | .timestamp => "timestamp"

/-- The instruction that a byte stands for. -/
def ofByte? (b : UInt8) : Option Opcode :=
  match b.toNat with
  | 0x01 => some .bkpt
  | 0x02 => some .nop
  | 0x03 => some .throw
  | 0x04 => some .getSuper
  | 0x05 => some .setSuper
  | 0x06 => some .dxns
  | 0x07 => some .dxnsLate
  | 0x08 => some .kill
  | 0x09 => some .label
  | 0x0c => some .ifNLT
  | 0x0d => some .ifNLE
  | 0x0e => some .ifNGT
  | 0x0f => some .ifNGE
  | 0x10 => some .jump
  | 0x11 => some .ifTrue
  | 0x12 => some .ifFalse
  | 0x13 => some .ifEq
  | 0x14 => some .ifNe
  | 0x15 => some .ifLT
  | 0x16 => some .ifLE
  | 0x17 => some .ifGT
  | 0x18 => some .ifGE
  | 0x19 => some .ifStrictEq
  | 0x1a => some .ifStrictNe
  | 0x1b => some .lookupSwitch
  | 0x1c => some .pushWith
  | 0x1d => some .popScope
  | 0x1e => some .nextName
  | 0x1f => some .hasNext
  | 0x20 => some .pushNull
  | 0x21 => some .pushUndefined
  | 0x23 => some .nextValue
  | 0x24 => some .pushByte
  | 0x25 => some .pushShort
  | 0x26 => some .pushTrue
  | 0x27 => some .pushFalse
  | 0x28 => some .pushNaN
  | 0x29 => some .pop
  | 0x2a => some .dup
  | 0x2b => some .swap
  | 0x2c => some .pushString
  | 0x2d => some .pushInt
  | 0x2e => some .pushUInt
  | 0x2f => some .pushDouble
  | 0x30 => some .pushScope
  | 0x31 => some .pushNamespace
  | 0x32 => some .hasNext2
  | 0x40 => some .newFunction
  | 0x41 => some .call
  | 0x42 => some .construct
  | 0x43 => some .callMethod
  | 0x44 => some .callStatic
  | 0x45 => some .callSuper
  | 0x46 => some .callProperty
  | 0x47 => some .returnVoid
  | 0x48 => some .returnValue
  | 0x49 => some .constructSuper
  | 0x4a => some .constructProp
  | 0x4c => some .callPropLex
  | 0x4e => some .callSuperVoid
  | 0x4f => some .callPropVoid
  | 0x53 => some .applyType
  | 0x55 => some .newObject
  | 0x56 => some .newArray
  | 0x57 => some .newActivation
  | 0x58 => some .newClass
  | 0x59 => some .getDescendants
  | 0x5a => some .newCatch
  | 0x5d => some .findPropStrict
  | 0x5e => some .findProperty
  | 0x60 => some .getLex
  | 0x61 => some .setProperty
  | 0x62 => some .getLocal
  | 0x63 => some .setLocal
  | 0x64 => some .getGlobalScope
  | 0x65 => some .getScopeObject
  | 0x66 => some .getProperty
  | 0x68 => some .initProperty
  | 0x6a => some .deleteProperty
  | 0x6c => some .getSlot
  | 0x6d => some .setSlot
  | 0x6e => some .getGlobalSlot
  | 0x6f => some .setGlobalSlot
  | 0x70 => some .convertS
  | 0x71 => some .escXElem
  | 0x72 => some .escXAttr
  | 0x73 => some .convertI
  | 0x74 => some .convertU
  | 0x75 => some .convertD
  | 0x76 => some .convertB
  | 0x77 => some .convertO
  | 0x78 => some .checkFilter
  | 0x80 => some .coerce
  | 0x81 => some .coerceB
  | 0x82 => some .coerceA
  | 0x83 => some .coerceI
  | 0x84 => some .coerceD
  | 0x85 => some .coerceS
  | 0x86 => some .asType
  | 0x87 => some .asTypeLate
  | 0x88 => some .coerceU
  | 0x89 => some .coerceO
  | 0x90 => some .negate
  | 0x91 => some .increment
  | 0x92 => some .incLocal
  | 0x93 => some .decrement
  | 0x94 => some .decLocal
  | 0x95 => some .typeOf
  | 0x96 => some .not
  | 0x97 => some .bitNot
  | 0xa0 => some .add
  | 0xa1 => some .subtract
  | 0xa2 => some .multiply
  | 0xa3 => some .divide
  | 0xa4 => some .modulo
  | 0xa5 => some .lShift
  | 0xa6 => some .rShift
  | 0xa7 => some .uRShift
  | 0xa8 => some .bitAnd
  | 0xa9 => some .bitOr
  | 0xaa => some .bitXor
  | 0xab => some .equals
  | 0xac => some .strictEquals
  | 0xad => some .lessThan
  | 0xae => some .lessEquals
  | 0xaf => some .greaterThan
  | 0xb0 => some .greaterEquals
  | 0xb1 => some .instanceOf
  | 0xb2 => some .isType
  | 0xb3 => some .isTypeLate
  | 0xb4 => some .inObject
  | 0xc0 => some .incrementI
  | 0xc1 => some .decrementI
  | 0xc2 => some .incLocalI
  | 0xc3 => some .decLocalI
  | 0xc4 => some .negateI
  | 0xc5 => some .addI
  | 0xc6 => some .subtractI
  | 0xc7 => some .multiplyI
  | 0xd0 => some .getLocal0
  | 0xd1 => some .getLocal1
  | 0xd2 => some .getLocal2
  | 0xd3 => some .getLocal3
  | 0xd4 => some .setLocal0
  | 0xd5 => some .setLocal1
  | 0xd6 => some .setLocal2
  | 0xd7 => some .setLocal3
  | 0xef => some .debug
  | 0xf0 => some .debugLine
  | 0xf1 => some .debugFile
  | 0xf2 => some .bkptLine
  | 0xf3 => some .timestamp
  | _ => none

/-- The mnemonic of the instruction at a byte, or the byte itself. -/
def nameOfByte (b : UInt8) : String :=
  match ofByte? b with
  | some op => op.name
  | none => "0x" ++ Text.hexByte b

theorem ofByte?_byte (op : Opcode) : ofByte? op.byte = some op := by
  cases op <;> rfl

end Opcode

end MethodJit
