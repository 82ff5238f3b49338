import MethodJit.Routine.Context

/-!
# Routines as a whole

`Routine` collects the routines that compiled code can call. A routine has a signature, and `call` runs
it on words, which are what the registers of compiled code hold.
-/

namespace MethodJit

/-- The types of words. -/
inductive Ty
  /-- No word. -/
  | void
  /-- A number, of which routines see the low 32 bits. -/
  | int
  | bool
  | object
  /-- An area of slots. -/
  | slice
  /-- The frame. -/
  | context
deriving DecidableEq, Repr

def Ty.name : Ty → String
  | .void => "void"
  | .int => "int"
  | .bool => "bool"
  | .object => "object"
  | .slice => "slice"
  | .context => "ctx"

/-- The types in their order. -/
def Ty.all : List Ty := [.void, .int, .bool, .object, .slice, .context]

structure Signature where
  params : List Ty
  result : Ty
deriving DecidableEq, Repr

def Signature.text (s : Signature) : String :=
  "(" ++ ", ".intercalate (s.params.map Ty.name) ++ ") " ++ s.result.name

inductive Routine
  | unary (r : Unary)
  | binary (r : Binary)
  | test (t : Test)
  | compare (c : Comparison)
  | effect (e : Effect)
  | frame (a : FrameAction)
  | indexed (a : IndexedAction)
  | pair (a : PairAction)
  | supply (s : Supply)
  | constant (c : Constant)
  /-- Makes a value of a number. -/
  | box
  /-- The common bits of two numbers. -/
  | bitAndInts
  /-- The common bits of a value and a number. -/
  | bitAndMixed
  | shift (s : Shift)
deriving DecidableEq, Repr

namespace Routine

def signature : Routine → Signature
  | .unary _ => ⟨[.object], .object⟩
  | .binary _ => ⟨[.object, .object], .object⟩
  | .test _ => ⟨[.object], .bool⟩
  | .compare _ => ⟨[.object, .object], .bool⟩
  | .effect _ => ⟨[.object], .void⟩
  | .frame _ => ⟨[.context], .void⟩
  | .indexed _ => ⟨[.context, .int], .void⟩
  | .pair _ => ⟨[.context, .int, .int], .void⟩
  | .supply _ => ⟨[.context], .object⟩
  | .constant _ => ⟨[.context, .int], .object⟩
  | .box => ⟨[.int], .object⟩
  | .bitAndInts => ⟨[.int, .int], .int⟩
  | .bitAndMixed => ⟨[.object, .int], .int⟩
  | .shift _ => ⟨[.int, .object], .object⟩

end Routine

/-- What a register holds. -/
inductive Word
  /-- Nothing has been assigned yet. -/
  | blank
  | value (v : Value)
  | int (n : Int64)
  | area (a : Option Area)
  | context
deriving DecidableEq, Repr

namespace Word

def ofBool (b : Bool) : Word := .int (if b then 1 else 0)

/-- The value of a word, unbound if it has none. -/
def toValue : Word → Value
  | .value v => v
  | _ => .unbound

/-- The number of a word, zero if it has none. -/
def toInt : Word → Int64
  | .int n => n
  | _ => 0

/-- The number of a word as routines see it. -/
def toInt32 (w : Word) : Int32 := w.toInt.toInt32

/-- The area of a word, none if it has none. -/
def toArea : Word → Option Area
  | .area a => a
  | _ => none

/-- Whether a word has the form that a type asks for. -/
def hasType : Word → Ty → Bool
  | .value _, .object => true
  | .int _, .int | .int _, .bool => true
  | .area _, .slice => true
  | .context, .context => true
  | _, _ => false

end Word

variable {σ : Type}

/-- The word at a position of an argument list. -/
def wordAt (args : List Word) (i : Nat) : Word := args[i]?.getD .blank

/-- Calls a routine with words. -/
def Routine.call (host : Host σ) (r : Routine) (args : List Word) : Act σ Word :=
  let v i := (wordAt args i).toValue
  let n i := (wordAt args i).toInt32
  match r with
  | .unary r => do pure (.value (← onHeap (r.run (v 0))))
  | .binary r => do pure (.value (← onHeap (r.run (v 0) (v 1))))
  | .test t => do pure (.ofBool (← onHeap (t.run (v 0))))
  | .compare c => do pure (.ofBool (← onHeap (c.run (v 0) (v 1))))
  | .effect e => do
    onHeap (e.run (v 0))
    pure .blank
  | .frame a => do
    a.run
    pure .blank
  | .indexed a => do
    a.run host (n 1)
    pure .blank
  | .pair a => do
    a.run host (n 1) (n 2)
    pure .blank
  | .supply s => do pure (.value (← s.run))
  | .constant c => do pure (.value (← c.run (n 1)))
  | .box => do pure (.value (← onHeap (newInt (n 0))))
  | .bitAndInts => pure (.int (n 0 &&& n 1).toInt64)
  | .bitAndMixed => do pure (.int (← onHeap (bitAndWord (v 0) (n 1))).toInt64)
  | .shift s => do pure (.value (← onHeap (s.run (n 0) (v 1))))

end MethodJit
