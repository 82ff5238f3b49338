import MethodJit.Routine.Signature

/-!
# Helpers

A helper is a name with a signature, to which a routine of that signature can be bound. A `HelperTable`
declares helpers, binds them and, once all of them are bound, can be frozen.
-/

namespace MethodJit

structure Helper where
  name : String
  signature : Signature
  routine : Option Routine := none
deriving DecidableEq, Repr

namespace Helper

def isBound (h : Helper) : Bool := h.routine.isSome

/-- A routine under a name, with its own signature. -/
def ofRoutine (name : String) (r : Routine) : Helper := ⟨name, r.signature, some r⟩

end Helper

/-- What is wrong with the use of a helper table. -/
inductive HelperFault
  | declaredFrozen (name : String)
  | redeclared (name : String) (now before : Signature)
  | boundFrozen (name : String)
  | undeclared (name : String)
  | shapeless (name shape : String)
  | mismatch (name : String) (implementation declaration : Signature)
  | unbound (name : String)
deriving DecidableEq, Repr

namespace HelperFault

def message : HelperFault → String
  | .declaredFrozen name => "backend: declaring " ++ name ++ " in frozen module"
  | .redeclared name now before =>
    "backend: " ++ name ++ " redeclared as " ++ now.text ++ " (was " ++ before.text ++ ")"
  | .boundFrozen name => "backend: binding " ++ name ++ " in frozen module"
  | .undeclared name => "backend: " ++ name ++ " is not declared"
  | .shapeless name shape =>
    "backend: " ++ name ++ " implementation has unsupported type " ++ shape
  | .mismatch name implementation declaration =>
    "backend: " ++ name ++ " implementation signature " ++ implementation.text ++
      " does not match declaration " ++ declaration.text
  | .unbound name => "backend: " ++ name ++ " is declared but not bound"

end HelperFault

/-- What a helper is bound to: a routine, or something of another shape that cannot be called. -/
inductive Implementation
  | routine (r : Routine)
  | foreign (shape : String)
deriving DecidableEq, Repr

structure HelperTable where
  helpers : List Helper := []
  frozen : Bool := false
deriving Repr

namespace HelperTable

def find? (t : HelperTable) (name : String) : Option Helper :=
  t.helpers.find? (·.name = name)

/-- Declares a helper. A name can be declared again with the same signature. -/
def declare (t : HelperTable) (name : String) (s : Signature) :
    Except HelperFault (Helper × HelperTable) :=
  if t.frozen then .error (.declaredFrozen name)
  else match t.find? name with
    | some h =>
      if h.signature = s then .ok (h, t) else .error (.redeclared name s h.signature)
    | none =>
      let h : Helper := { name, signature := s }
      .ok (h, { t with helpers := t.helpers ++ [h] })

/-- Replaces the helper of a name. -/
def update (t : HelperTable) (h : Helper) : HelperTable :=
  { t with helpers := t.helpers.map fun g => if g.name = h.name then h else g }

/-- Binds an implementation of the declared signature to a helper. -/
def bind (t : HelperTable) (name : String) (i : Implementation) : Except HelperFault HelperTable :=
  if t.frozen then .error (.boundFrozen name)
  else match t.find? name, i with
    | none, _ => .error (.undeclared name)
    | some _, .foreign shape => .error (.shapeless name shape)
    | some h, .routine r =>
      if r.signature = h.signature then .ok (t.update { h with routine := some r })
      else .error (.mismatch name r.signature h.signature)

/-- The names of the helpers in their order. -/
def names (t : HelperTable) : List String :=
  (t.helpers.map Helper.name).mergeSort (· ≤ ·)

/-- Makes the table unchangeable if all its helpers are bound. -/
def freeze (t : HelperTable) : Except HelperFault HelperTable :=
  let loose := t.names.find? fun name => (t.find? name).any fun h => !h.isBound
  match loose with
  | some name => .error (.unbound name)
  | none => .ok { t with frozen := true }

end HelperTable

end MethodJit
