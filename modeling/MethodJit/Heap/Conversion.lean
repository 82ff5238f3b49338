import MethodJit.Double.Printer
import MethodJit.Double.Reader
import MethodJit.Heap.Basic

/-!
# Conversions

Values as numbers, words, truth values and texts. The text of an array joins the texts of its
elements; it does not exist for an array that contains itself.
-/

namespace MethodJit.Heap

/-- The type of a value. A slot that was never bound has none. -/
def kind? (h : Heap) (v : Value) : Option Kind :=
  match v with
  | .unbound => none
  | .undefined => some .undefined
  | .null => some .null
  | .bool _ => some .boolean
  | .ref _ => (h.body? v).map Body.kind

def toNumber (h : Heap) (v : Value) : Double :=
  match v with
  | .null => .zero false
  | .bool b => if b then .ofNat 1 else .zero false
  | .ref _ =>
    match h.body? v with
    | some (.int n) => .ofInt n.toInt
    | some (.uint n) => .ofNat n.toNat
    | some (.number x) => x
    | some (.string s) => .ofText s
    | _ => .nan
  | _ => .nan

def toInt32 (h : Heap) (v : Value) : Int32 :=
  match h.body? v with
  | some (.int n) => n
  | some (.uint n) => n.toInt32
  | _ => (h.toNumber v).toInt32

def toUInt32 (h : Heap) (v : Value) : UInt32 := (h.toInt32 v).toUInt32

def toBool (h : Heap) (v : Value) : Bool :=
  match v with
  | .undefined | .null => false
  | .bool b => b
  | _ =>
    match h.body? v with
    | some (.int n) => n ≠ 0
    | some (.uint n) => n ≠ 0
    | some (.number x) => !x.isZero && !x.isNaN
    | some (.string s) => s ≠ ""
    | _ => true

/-- The text of a value whose arrays are nested at most `depth` deep. -/
def textWithin (h : Heap) : Nat → Value → Except Fault String
  | 0, _ => throw .endless
  | depth + 1, v =>
    match v with
    | .undefined => pure "undefined"
    | .null => pure "null"
    | .bool b => pure (if b then "true" else "false")
    | _ =>
      match h.body? v with
      | some (.int n) => pure (toString n.toInt)
      | some (.uint n) => pure (toString n.toNat)
      | some (.number x) => pure x.text
      | some (.string s) => pure s
      | some (.array elems) => do
        let parts ← elems.toList.mapM fun e =>
          if e.isNullish then pure ""
          else if e.isBound then h.textWithin depth e
          else throw .bounds
        pure (",".intercalate parts)
      | some (.function ..) => pure "function Function() \x7b\x7d"
      | _ => pure "[object Object]"

/-- The text of a value. A path through arrays that is longer than the heap passes through some array
twice. -/
def toText (h : Heap) (v : Value) : Except Fault String :=
  h.textWithin (h.cells.size + 1) v

end MethodJit.Heap

namespace MethodJit

/-- The type of a bound value. -/
def kindOf (v : Value) : HeapM Kind := fun h =>
  match h.kind? v with
  | some k => .ok k h
  | none => .error .bounds h

def textOf (v : Value) : HeapM String := fun h =>
  match h.toText v with
  | .ok s => .ok s h
  | .error e => .error e h

def numberOf (v : Value) : HeapM Double := fun h => .ok (h.toNumber v) h
def wordOf (v : Value) : HeapM Int32 := fun h => .ok (h.toInt32 v) h
def truthOf (v : Value) : HeapM Bool := fun h => .ok (h.toBool v) h

/-- A number as a value: a word if it is equal to one, and a number cell otherwise. -/
def newNumeric (x : Double) : HeapM Value :=
  match x.toInt32? with
  | some n => newInt n
  | none => newNumber x

end MethodJit
