import MethodJit.Heap.Basic

/-!
# Snapshots

A snapshot is a tree that shows values and what they refer to. Cells are numbered in the order in
which they are met; a cell that is met again is shown by its number only.
-/

namespace MethodJit

inductive Snapshot
  | unbound
  | undefined
  | null
  | bool (b : Bool)
  | same (id : Nat)
  | int (id count : Nat) (n : Int32)
  | uint (id count : Nat) (n : UInt32)
  | number (id count : Nat) (x : Double)
  | string (id count : Nat) (s : String)
  | object (id count : Nat) (constructor : Option String) (fields : List (String × Snapshot))
  | array (id count : Nat) (elems : List Snapshot)
  | function (id count : Nat) (name : String)

/-- The cells that were met, the last one first. -/
abbrev Seen := List Address

namespace Heap

/-- The name of the function at an address. -/
def functionName? (h : Heap) (a : Address) : Option String :=
  match h.body? (.ref a) with
  | some (.function name _) => some name
  | _ => none

/-- The number of a cell that was met. -/
def seenId? (seen : Seen) (a : Address) : Option Nat :=
  (seen.idxOf? a).map fun i => seen.length - 1 - i

/-- A snapshot of a value, at most `depth` cells deep. -/
def snapshotWithin (h : Heap) : Nat → Value → StateM Seen Snapshot
  | 0, _ => pure .unbound
  | depth + 1, v =>
    match v with
    | .unbound => pure .unbound
    | .undefined => pure .undefined
    | .null => pure .null
    | .bool b => pure (.bool b)
    | .ref a => do
      let seen ← get
      match seenId? seen a with
      | some id => pure (.same id)
      | none =>
        let id := seen.length
        set (a :: seen)
        match h.cells[a]? with
        | none => pure .unbound
        | some ⟨count, body⟩ =>
          match body with
          | .int n => pure (.int id count n)
          | .uint n => pure (.uint id count n)
          | .number x => pure (.number id count x)
          | .string s => pure (.string id count s)
          | .object table constructor => do
            let fields ← table.entries.mapM fun (name, x) => do
              pure (name, ← h.snapshotWithin depth x)
            pure (.object id count (constructor.bind h.functionName?) fields)
          | .array elems => do
            pure (.array id count (← elems.toList.mapM (h.snapshotWithin depth)))
          | .function name _ => pure (.function id count name)

/-- A snapshot of a value among others that were shown before. -/
def snapshot (h : Heap) (v : Value) : StateM Seen Snapshot :=
  h.snapshotWithin (h.cells.size + 1) v

end Heap

end MethodJit
