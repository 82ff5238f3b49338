import MethodJit.Text.Hex

/-!
# Defects of methods

`CodeFault` lists what can be wrong with the code or the description of a method. The message of
each is the text that users see.
-/

namespace MethodJit

/-- The tables which immediates index. -/
inductive Table
  | names
  | ints
  | uints
  | doubles
  | strings
  | locals
  | other (name : String)
deriving DecidableEq, Repr

def Table.name : Table → String
  | .names => "multiname"
  | .ints => "int"
  | .uints => "uint"
  | .doubles => "double"
  | .strings => "string"
  | .locals => "local"
  | .other name => name

/-- What is wrong with the description of a method. -/
inductive MethodProblem
  | negativeParams
  | negativeStack
  | argumentsAndRest
  | tooFewLocals (count need : Int64)
deriving DecidableEq, Repr

def MethodProblem.message (method : String) (p : MethodProblem) : String :=
  "method " ++ method ++ ": " ++ match p with
    | .negativeParams => "negative parameter count"
    | .negativeStack => "negative max stack"
    | .argumentsAndRest => "both arguments and rest requested"
    | .tooFewLocals count need =>
      s!"local count {count.toInt} does not cover {need.toInt} bound slots"

inductive CodeFault
  /-- There was no byte to read. -/
  | ended
  /-- Some bytes of an immediate were missing. -/
  | truncated
  | tooManyGroups
  | valueTooLarge
  | indexOutOfRange (table : Table) (index : Nat) (size : Int)
  | countTooLarge (what : String) (count : Nat)
  | targetOutOfRange (target : Int)
  | targetOutOfRangeAt (target : Int) (offset : Int)
  | targetWithoutLabel (target : Int) (offset : Int)
  | targetInside (target : Int) (offset : Int)
  | noEnd
  | noEndAt (offset : Nat)
  | noLocal (index : Nat)
  | unknownOpcode (byte : UInt8)
  | unsupported (byte : UInt8) (offset : Int)
  | disabled
  | tooLong (size limit : Int)
  | invalid (method : String) (problem : MethodProblem)
  | text (message : String)
deriving DecidableEq, Repr

namespace CodeFault

def message : CodeFault → String
  | .ended => "EOF"
  | .truncated => "unexpected EOF"
  | .tooManyGroups => "u32 encoding is too long"
  | .valueTooLarge => "u30 value is too large"
  | .indexOutOfRange table index size =>
    table.name ++ s!" index {index} out of range (pool size {size})"
  | .countTooLarge what count => what ++ s!" count is too large: {count}"
  | .targetOutOfRange target => s!"branch target {target} out of range"
  | .targetOutOfRangeAt target offset => s!"branch target {target} out of range at offset {offset}"
  | .targetWithoutLabel target offset =>
    s!"backward branch at offset {offset} to {target} without label"
  | .targetInside target offset =>
    s!"branch target {target} is inside instruction at offset {offset}"
  | .noEnd => "code falls off the end"
  | .noEndAt offset => s!"code falls off the end at offset {offset}"
  | .noLocal index => s!"local index {index} out of range"
  | .unknownOpcode byte => "unknown opcode 0x" ++ Text.hexByte byte
  | .unsupported byte offset => "unsupported opcode 0x" ++ Text.hexByte byte ++ s!" at offset {offset}"
  | .disabled => "compilation is disabled"
  | .tooLong size limit => s!"code size {size} exceeds limit {limit}"
  | .invalid method problem => problem.message method
  | .text message => message

/-- Code that ends too early is reported in one way, wherever it was noticed. -/
def reported : CodeFault → CodeFault
  | .ended => .truncated
  | e => e

end CodeFault

end MethodJit
