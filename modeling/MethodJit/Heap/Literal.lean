import MethodJit.Heap.Property

/-!
# Literals

Descriptions of values, and the building of values from them. A literal can name a value that exists
already, or a function that a host defines.
-/

namespace MethodJit

inductive Literal
  | undefined
  | null
  | bool (b : Bool)
  | int (n : Int32)
  | uint (n : UInt32)
  | number (x : Double)
  | string (s : String)
  | object (fields : List (String × Literal))
  | array (elems : List Literal)
  | native (n : Native) (name : String)
  /-- A function of the host, by its position. -/
  | hosted (i : Nat)
  /-- Another reference to a value, by its position. -/
  | ref (i : Nat)
deriving Inhabited, Repr

/-- What the positions in literals stand for. -/
structure Bindings where
  values : Array Value := #[]
  functions : Array (String × Callable) := #[]

mutual

/-- Builds a value, owned by the caller. -/
def Literal.build (env : Bindings) : Literal → HeapM Value
  | .undefined => pure .undefined
  | .null => pure .null
  | .bool b => pure (.bool b)
  | .int n => newInt n
  | .uint n => newUInt n
  | .number x => newNumber x
  | .string s => newString s
  | .object fields => do
    let o ← newObject none
    buildFields env o fields
    pure o
  | .array elems => do newArray (← buildElems env elems).toArray
  | .native n name => alloc (.function name (.native n))
  | .hosted i =>
    match env.functions[i]? with
    | some (name, callable) => alloc (.function name callable)
    | none => throw .bounds
  | .ref i =>
    match env.values[i]? with
    | some v => shared v
    | none => throw .bounds

/-- Stores the fields in an object, one after another. -/
def buildFields (env : Bindings) (o : Value) : List (String × Literal) → HeapM Unit
  | [] => pure ()
  | (name, l) :: fields => do
    let v ← l.build env
    setProperty o name v
    buildFields env o fields

def buildElems (env : Bindings) : List Literal → HeapM (List Value)
  | [] => pure []
  | l :: ls => do
    let v ← l.build env
    pure (v :: (← buildElems env ls))

end

/-- Builds values of which later ones can refer to earlier ones. -/
def buildAll (functions : Array (String × Callable)) (ls : List Literal) : HeapM (Array Value) :=
  ls.foldlM (fun vs l => return vs.push (← l.build ⟨vs, functions⟩)) #[]

end MethodJit
