import MethodJit.Heap.Conversion

/-!
# Properties

An object has named properties, kept in the order of their insertion. An array has its length and its
elements, named by their positions in decimal. A string has its length and a function its name.
Storing takes over the reference to the new value and releases the displaced one.
-/

namespace MethodJit

namespace PropertyTable

def find? (t : PropertyTable) (name : String) : Option Value := t.entries.lookup name

def has (t : PropertyTable) (name : String) : Bool := t.entries.any (·.1 = name)

/-- Puts a value in the place of the one with that name, or at the end. -/
def setEntry (name : String) (v : Value) : List (String × Value) → List (String × Value)
  | [] => [(name, v)]
  | e :: es => if e.1 = name then (name, v) :: es else e :: setEntry name v es

def set (t : PropertyTable) (name : String) (v : Value) : PropertyTable :=
  { t with entries := setEntry name v t.entries }

def erase (t : PropertyTable) (name : String) : PropertyTable :=
  { t with entries := t.entries.eraseP (·.1 = name) }

end PropertyTable

/-- The position that a name stands for: its decimal form, without signs or leading zeros, below
`2 ^ 63`. -/
def arrayIndex? (name : String) : Option Nat :=
  let cs := name.toList
  if cs.all Char.isDigit then
    let n := cs.foldl (fun n c => n * 10 + (c.toNat - 48)) 0
    if n < 0x8000000000000000 ∧ toString n = name then some n else none
  else none

namespace Heap

def has (h : Heap) (v : Value) (name : String) : Bool :=
  match h.body? v with
  | some (.object table _) => table.has name
  | some (.array elems) =>
    name = "length" || match arrayIndex? name with
      | some i => i < elems.size
      | none => false
  | some (.string _) => name = "length"
  | _ => false

/-- The number of positions of an enumeration. -/
def enumSize (h : Heap) (v : Value) : Nat :=
  match h.body? v with
  | some (.object table _) => table.entries.length
  | some (.array elems) => elems.size
  | _ => 0

/-- The position after `i` of an enumeration, counted from one, or zero at its end. -/
def nextIndex (h : Heap) (v : Value) (i : Int) : Int :=
  if i < h.enumSize v then i + 1 else 0

end Heap

/-- A new reference to a value. -/
def shared (v : Value) : HeapM Value := do
  retain v
  pure v

/-- A new reference to the property of that name, or undefined. -/
def getProperty (v : Value) (name : String) : HeapM Value := do
  match (← get).body? v with
  | some (.object table _) =>
    match table.find? name with
    | some x => if x.isBound then shared x else pure .undefined
    | none => pure .undefined
  | some (.array elems) =>
    if name = "length" then newInt (.ofNat elems.size)
    else match arrayIndex? name with
      | some i =>
        match elems[i]? with
        | some x => shared x
        | none => pure .undefined
      | none => pure .undefined
  | some (.string s) =>
    if name = "length" then newInt (.ofNat s.length) else pure .undefined
  | some (.function fname _) =>
    if name = "name" then newString fname else pure .undefined
  | _ => pure .undefined

/-- Puts another body into the cell of a value. -/
def setBody (v : Value) (b : Body) : HeapM Unit := fun h =>
  match v with
  | .ref a =>
    match h.cells[a]? with
    | some c => .ok () (h.setCell a { c with body := b })
    | none => .error .bounds h
  | _ => .error .bounds h

/-- An array with `x` at position `i`, filled up with undefined as far as needed. -/
def storeElem (elems : Array Value) (i : Nat) (x : Value) : Array Value :=
  (elems ++ Array.replicate (i + 1 - elems.size) Value.undefined).setIfInBounds i x

/-- Stores `x` as the property of that name. A receiver that cannot hold it drops it. -/
def setProperty (v : Value) (name : String) (x : Value) : HeapM Unit := do
  match (← get).body? v with
  | some (.object table constructor) =>
    if table.writable then do
      setBody v (.object (table.set name x) constructor)
      match table.find? name with
      | some old => release old
      | none => pure ()
    else throw .bounds
  | some (.array elems) =>
    match arrayIndex? name with
    | some i =>
      setBody v (.array (storeElem elems i x))
      release ((elems[i]?).getD .undefined)
    | none => release x
  | _ => release x

/-- Removes the property of that name from an object, and tells whether there was one. -/
def deleteProperty (v : Value) (name : String) : HeapM Bool := do
  match (← get).body? v with
  | some (.object table constructor) =>
    match table.find? name with
    | some old =>
      setBody v (.object (table.erase name) constructor)
      release old
      pure true
    | none => pure false
  | _ => pure false

/-- The name at a position of an enumeration, counted from one. -/
def nameAt (v : Value) (i : Int) : HeapM Value := do
  let h ← get
  if i < 1 ∨ h.enumSize v < i then pure .undefined
  else match h.body? v with
    | some (.object table _) =>
      match table.entries[i.toNat - 1]? with
      | some e => newString e.1
      | none => pure .undefined
    | _ => newInt (.ofInt (i - 1))

/-- A new reference to the value at a position of an enumeration, counted from one. -/
def valueAt (v : Value) (i : Int) : HeapM Value := do
  let h ← get
  if i < 1 ∨ h.enumSize v < i then pure .undefined
  else match h.body? v with
    | some (.object table _) =>
      match table.entries[i.toNat - 1]? with
      | some e => getProperty v e.1
      | none => pure .undefined
    | some (.array elems) =>
      match elems[i.toNat - 1]? with
      | some x => shared x
      | none => pure .undefined
    | _ => pure .undefined

end MethodJit
