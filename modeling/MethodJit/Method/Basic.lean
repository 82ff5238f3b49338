import MethodJit.Code.Fault
import MethodJit.Double.Basic

/-!
# Methods

A method has a name, counts of its parameters, locals and operands, flags, code and constants. The
counts are 64-bit words and wrap. `Method.problem?` tells what is wrong with the counts: the locals
must cover the receiver, the parameters and the array of arguments.
-/

namespace MethodJit

structure Flags where
  bits : UInt8
deriving DecidableEq, Repr, Inhabited

namespace Flags

def needArguments (f : Flags) : Bool := f.bits &&& 0x01 ≠ 0
def needActivation (f : Flags) : Bool := f.bits &&& 0x02 ≠ 0
def needRest (f : Flags) : Bool := f.bits &&& 0x04 ≠ 0
def hasOptional (f : Flags) : Bool := f.bits &&& 0x08 ≠ 0

def names (f : Flags) : List String :=
  (if f.needArguments then ["arguments"] else []) ++
  (if f.needActivation then ["activation"] else []) ++
  (if f.needRest then ["rest"] else []) ++
  (if f.hasOptional then ["optional"] else [])

def text (f : Flags) : String :=
  match f.names with
  | [] => "0"
  | names => "|".intercalate names

end Flags

/-- The constants of a method. -/
structure Pool where
  ints : Array Int32 := #[]
  uints : Array UInt32 := #[]
  doubles : Array Double := #[]
  strings : Array String := #[]
  names : Array String := #[]
deriving DecidableEq, Repr, Inhabited

structure Method where
  name : String := ""
  params : Int64 := 0
  flags : Flags := ⟨0⟩
  maxStack : Int64 := 0
  locals : Int64 := 0
  code : Option (Array UInt8) := none
  pool : Option Pool := none
deriving DecidableEq, Repr, Inhabited

namespace Method

def bytes (m : Method) : Array UInt8 := m.code.getD #[]
def constants (m : Method) : Pool := m.pool.getD {}

/-- Whether an array of arguments is bound to a local. -/
def collects (m : Method) : Bool := m.flags.needArguments || m.flags.needRest

/-- The local that holds the array of arguments, or `-1`. -/
def argumentsSlot (m : Method) : Int64 := if m.collects then 1 + m.params else -1

/-- The number of locals that are bound to something other than undefined. -/
def boundSlots (m : Method) : Int64 :=
  let n := 1 + m.params
  if 0 ≤ m.argumentsSlot then n + 1 else n

def problem? (m : Method) : Option MethodProblem :=
  if m.params < 0 then some .negativeParams
  else if m.maxStack < 0 then some .negativeStack
  else if m.flags.needArguments && m.flags.needRest then some .argumentsAndRest
  else if m.locals < m.boundSlots then some (.tooFewLocals m.locals m.boundSlots)
  else none

def text (m : Method) : String := m.name ++ s!"({m.params.toInt})"

end Method

/-- A place that keeps the first thing put into it. -/
structure Once (α : Type) where
  held : Option α := none
deriving Repr

/-- Fills an empty place, and gives what the place holds then. -/
def Once.publish {α : Type} (s : Once α) (x : α) : Once α × α :=
  match s.held with
  | none => (⟨some x⟩, x)
  | some y => (s, y)

end MethodJit
