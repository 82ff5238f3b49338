import MethodJit.Code.Fault
import MethodJit.Value

/-!
# Faults

Everything that stops a computation before its result: a defect of a method, a thrown value, a trap,
a defect of the compiler, a reference released twice, an access out of bounds, and the running out of
steps.
-/

namespace MethodJit

/-- Why a trap was set. -/
inductive TrapReason
  | unreachable
  | unsupported
  | other (n : Int)
deriving DecidableEq, Repr

namespace TrapReason

def ofInt (n : Int) : TrapReason :=
  if n = 0 then .unreachable else if n = 1 then .unsupported else .other n

def name : TrapReason → String
  | .unreachable => "unreachable"
  | .unsupported => "unsupported opcode"
  | .other n => s!"unknown trap {n}"

def message (r : TrapReason) : String := "trap: " ++ r.name

end TrapReason

/-- A trap and the instruction it stands for. -/
structure Trap where
  reason : TrapReason
  opcode : UInt8 := 0
  offset : Int := 0
deriving DecidableEq, Repr

def Trap.message (t : Trap) : String :=
  match t.reason with
  | .unsupported => "trap: unsupported opcode 0x" ++ Text.hexByte t.opcode ++ s!" at offset {t.offset}"
  | r => "trap: " ++ r.message ++ s!" at offset {t.offset}"

inductive Fault
  | code (e : CodeFault)
  | thrown (v : Value)
  | trap (t : Trap)
  /-- A defect of the compiler, noticed at an instruction. -/
  | internal (offset : Int) (message : String)
  /-- A reference that nobody owned was released. -/
  | underflow (k : Kind)
  /-- An index was out of range, or a slot was not bound. -/
  | bounds
  /-- The text of a value that contains itself has no end. -/
  | endless
  /-- The run was given too few steps. -/
  | exhausted
deriving DecidableEq, Repr

def underflowMessage (k : Kind) : String :=
  "reference count underflow on " ++ k.name ++ " object"

def internalMessage (offset : Int) (message : String) : String :=
  s!"internal error at offset {offset}: " ++ message

/-- Runs an action and gives its failure as a result. -/
def attempt {ε σ α : Type} (x : EStateM ε σ α) : EStateM ε σ (Except ε α) := fun s =>
  match x s with
  | .ok a s => .ok (.ok a) s
  | .error e s => .ok (.error e) s

/-- Runs an action and gives what it throws as a result. -/
def catching {σ α : Type} (x : EStateM Fault σ α) : EStateM Fault σ (Except Value α) := fun s =>
  match x s with
  | .ok a s => .ok (.ok a) s
  | .error (.thrown v) s => .ok (.error v) s
  | .error e s => .error e s

/-- Runs `body` and then `after`, also if `body` fails. If both fail, the failure of `after` is the
one that counts. -/
def ensuring {ε σ α : Type} (body : EStateM ε σ α) (after : EStateM ε σ Unit) : EStateM ε σ α :=
  fun s =>
    match body s with
    | .ok a s =>
      match after s with
      | .ok _ s => .ok a s
      | .error e s => .error e s
    | .error e s =>
      match after s with
      | .ok _ s => .error e s
      | .error e s => .error e s

end MethodJit
