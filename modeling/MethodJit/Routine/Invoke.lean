import MethodJit.Registry

/-!
# Calling helpers on values

A helper of the registry can be called on values by its name. A parameter that is a number is given the
word of the value.
-/

namespace MethodJit

/-- What a routine gave. -/
inductive Given
  | object (v : Value)
  | bool (b : Bool)
  | int (n : Int64)
  | nothing
deriving DecidableEq, Repr

/-- What a word stands for as the result of a routine. -/
def Signature.given (s : Signature) (w : Word) : Given :=
  match s.result with
  | .object => .object w.toValue
  | .bool => .bool (w.toInt ≠ 0)
  | .int => .int w.toInt
  | _ => .nothing

/-- The words of values for parameters. -/
def Heap.words (h : Heap) : List Ty → List Value → List Word
  | .int :: ts, v :: vs => .int (h.toInt32 v).toInt64 :: h.words ts vs
  | _ :: ts, v :: vs => .value v :: h.words ts vs
  | _, _ => []

namespace Registry

variable {σ : Type}

/-- Whether the helper of a name works on the frame. -/
def needsFrame (name : String) : Bool :=
  (table.find? name).any fun h => h.signature.params.head? = some .context

/-- Calls the helper of a name with words. -/
def invokeWords (host : Host σ) (name : String) (args : List Word) : Act σ Given :=
  match table.find? name with
  | some ⟨_, signature, some r⟩ => do pure (signature.given (← r.call host args))
  | _ => throw .bounds

/-- Calls the helper of a name, which does not work on the frame, with values. -/
def invoke (host : Host σ) (name : String) (args : List Value) : Act σ Given := do
  let params := ((table.find? name).map fun h => h.signature.params).getD []
  invokeWords host name ((← get).heap.words params args)

/-- Calls the helper of a name on the frame with numbers. -/
def invokeOnFrame (host : Host σ) (name : String) (imms : List Int32) : Act σ Given :=
  invokeWords host name (.context :: imms.map fun n => .int n.toInt64)

end Registry

end MethodJit
