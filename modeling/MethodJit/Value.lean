import MethodJit.Double.Basic

/-!
# Values

A value is immortal, or refers to a counted cell of the heap by its address. A slot that was never
bound holds `unbound`, on which no operation is defined but to test for it.
-/

namespace MethodJit

abbrev Address := Nat

inductive Value
  | unbound
  | undefined
  | null
  | bool (b : Bool)
  | ref (a : Address)
deriving DecidableEq, Repr, Inhabited

namespace Value

def isBound : Value → Bool
  | .unbound => false
  | _ => true

/-- Undefined and null. -/
def isNullish : Value → Bool
  | .undefined | .null => true
  | _ => false

end Value

/-- The types of values. -/
inductive Kind
  | undefined
  | null
  | boolean
  | int
  | uint
  | number
  | string
  | object
  | array
  | function
deriving DecidableEq, Repr

namespace Kind

def name : Kind → String
  | .undefined => "undefined"
  | .null => "null"
  | .boolean => "Boolean"
  | .int => "int"
  | .uint => "uint"
  | .number => "Number"
  | .string => "String"
  | .object => "Object"
  | .array => "Array"
  | .function => "Function"

def isNumeric : Kind → Bool
  | .int | .uint | .number => true
  | _ => false

def isNullish : Kind → Bool
  | .undefined | .null => true
  | _ => false

/-- The kinds in their order. -/
def all : List Kind :=
  [.undefined, .null, .boolean, .int, .uint, .number, .string, .object, .array, .function]

/-- What scripts call the type. -/
def scriptName : Kind → String
  | .undefined => "undefined"
  | .boolean => "boolean"
  | .int | .uint | .number => "number"
  | .string => "string"
  | .function => "function"
  | .null | .object | .array => "object"

end Kind

/-- The functions that a host provides. They borrow the receiver and the arguments. -/
inductive Native
  /-- Gives undefined. -/
  | nothing
  /-- Gives the receiver. -/
  | receiver
  /-- Gives the first argument, or undefined. -/
  | first
  /-- Gives the number of arguments. -/
  | count
  /-- Gives an array of the arguments. -/
  | collect
  /-- Stores the arguments in the receiver under their positions, and gives seven. -/
  | fill
  /-- Throws a text. -/
  | fail
deriving DecidableEq, Repr

/-- What a function runs: a native routine, a method of an engine, or a function of the program around. -/
inductive Callable
  | native (n : Native)
  | method (engine index : Nat)
  | foreign (index : Nat)
deriving DecidableEq, Repr

/-- Named properties in the order of their first insertion. A table that was given up is empty and
takes no more properties. -/
structure PropertyTable where
  entries : List (String × Value) := []
  writable : Bool := true
deriving DecidableEq, Repr

/-- What a cell holds. The constructor of an object is no counted reference. -/
inductive Body
  | int (n : Int32)
  | uint (n : UInt32)
  | number (x : Double)
  | string (s : String)
  | object (table : PropertyTable) (constructor : Option Address)
  | array (elems : Array Value)
  | function (name : String) (callable : Callable)
deriving DecidableEq, Repr

namespace Body

def kind : Body → Kind
  | .int _ => .int
  | .uint _ => .uint
  | .number _ => .number
  | .string _ => .string
  | .object .. => .object
  | .array _ => .array
  | .function .. => .function

/-- The references that a cell owns. -/
def children : Body → List Value
  | .object table _ => table.entries.map (·.2)
  | .array elems => elems.toList
  | _ => []

/-- A cell whose references were given up. -/
def emptied : Body → Body
  | .object _ constructor => .object ⟨[], false⟩ constructor
  | .array _ => .array #[]
  | b => b

theorem children_emptied (b : Body) : b.emptied.children = [] := by
  cases b <;> rfl

end Body

end MethodJit
