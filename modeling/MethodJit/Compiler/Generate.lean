import MethodJit.Compiler.Instruction

/-!
# Generating code for methods

The code of a method is read in one pass from its start to its end. A block starts at every label
instruction, at the target of every branch and after it. What follows a terminator up to the next block
cannot be reached and is skipped. `generate` gives the emitter in the state in which the pass ended, also
if it failed.
-/

namespace MethodJit.Compiler

open IR

namespace Emit

/-- Whether the instruction at a position is a label. -/
def isLabelAt (pos : Nat) : Emit Bool := do
  pure ((← get).method.bytes[pos]? = some Opcode.label.byte)

/-- Skips instructions until a block starts, and gives the position where it stopped. -/
def skipFrom : Nat → Nat → Emit Nat
  | 0, _ => throw .exhausted
  | fuel + 1, pos => do
    let e ← get
    match e.method.bytes[pos]? with
    | none => pure pos
    | some byte =>
      if (e.blocks.get? pos).isSome || byte = Opcode.label.byte then pure pos
      else do
        setOffset pos
        let (_, next) ← fetch (pos + 1) (skipInstruction byte)
        checkInterior pos next
        skipFrom fuel next

/-- Skips code that cannot be reached. -/
def skipUnreachable (pos : Nat) : Emit Nat := do
  let m := (← get).method
  let last ← skipFrom (m.bytes.size + 1) pos
  log {
    level := .debug
    message := "skipped unreachable code"
    fields := [("method", .text m.name), ("from", .number pos), ("to", .number last)] }
  pure last

/-- Enters the block that starts at a position, if there is one. -/
def enterAt (pos : Nat) : Emit Unit := do
  match (← get).blocks.get? pos with
  | some id => enterBlock id
  | none => pure ()

/-- Arrives at a position. A label makes a block start there, and a block that starts there is
entered. -/
def arrive (pos : Nat) : Emit Unit := do
  setOffset pos
  if ← isLabelAt pos then
    let _ ← blockAt pos
  enterAt pos

/-- Goes past the instruction at a position, or past what cannot be reached from there, and gives the
position after it. -/
def advance (byte : UInt8) (pos : Nat) : Emit Nat := do
  if ← build .terminated then skipUnreachable pos
  else do
    let next ← instruction byte (pos + 1)
    checkInterior pos next
    pure next

/-- Generates code from a position on. Every round goes at least one byte further, so that one more
round than there are bytes is enough. -/
def codeFrom : Nat → Nat → Emit Unit
  | 0, _ => throw .exhausted
  | fuel + 1, pos => do
    arrive pos
    match (← get).method.bytes[pos]? with
    | none => pure ()
    | some byte => do
      let next ← advance byte pos
      codeFrom fuel next

/-- Checks that every block has a terminator. -/
def checkTerminated (m : Method) : List Block → Emit Unit
  | [] => pure ()
  | b :: bs => do
    if b.term = .none then do
      log {
        level := .error
        message := "block without terminator"
        fields := [("method", .text m.name), ("block", .text b.name)] }
      defect ("block " ++ b.name ++ " has no terminator")
    checkTerminated m bs

/-- Generates the code of a method. -/
def method : Emit Unit := do
  let m := (← get).method
  startBlock "entry"
  let _ ← callHelper Registry.bindArguments [paramFrame]
  codeFrom (m.bytes.size + 1) 0
  if !(← build .terminated) then throw (.code .noEnd)
  checkTerminated m (← get).function.blocks.toList

end Emit

/-- What came of generating the code of a method. -/
structure Generated where
  /-- The function, as far as it was built. -/
  function : Function
  log : Array LogLine
  fault : Option Fault
deriving Repr

/-- Generates the code of a method. Bytecode that ends too early is reported in one way. -/
def generate (m : Method) : Generated :=
  match Emitter.make? m with
  | none => ⟨{ name := m.name }, #[], some .bounds⟩
  | some e =>
    match Emit.method e with
    | .ok _ e => ⟨e.function, e.log, none⟩
    | .error (.code f) e => ⟨e.function, e.log, some (.code f.reported)⟩
    | .error f e => ⟨e.function, e.log, some f⟩

end MethodJit.Compiler
