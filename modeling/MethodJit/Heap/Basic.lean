import MethodJit.Fault

/-!
# The heap

A cell counts the references to it. Whoever creates a cell owns its first reference; `retain` makes
another one and `release` gives one up. When the last reference to a cell is given up, the cell is
emptied and the references it owned are given up too, and so on. Every step of that takes one pending
reference and one reference out of the heap's cells, so it ends on every heap.
-/

namespace MethodJit

structure Cell where
  count : Nat
  body : Body
deriving DecidableEq, Repr

structure Heap where
  cells : Array Cell := #[]
  /-- The new objects of constructions that failed, to which nobody gives up the reference. -/
  abandoned : List Value := []
deriving DecidableEq, Repr, Inhabited

/-- Actions on the heap, which keep their effect when they fail. -/
abbrev HeapM := EStateM Fault Heap

namespace Heap

/-- The cell of a value, if it has one. -/
def cell? (h : Heap) : Value → Option Cell
  | .ref a => h.cells[a]?
  | _ => none

def body? (h : Heap) (v : Value) : Option Body :=
  (h.cell? v).map Cell.body

/-- The number of references to a value; immortal values count as one. -/
def countOf (h : Heap) (v : Value) : Nat :=
  ((h.cell? v).map Cell.count).getD 1

def setCell (h : Heap) (a : Address) (c : Cell) : Heap :=
  { h with cells := h.cells.setIfInBounds a c }

/-- The sum of `f` over a list. -/
def total {α : Type} (f : α → Nat) : List α → Nat
  | [] => 0
  | x :: xs => f x + total f xs

/-- Replacing an entry of a list changes a sum over it by the difference. -/
theorem total_set {α : Type} (f : α → Nat) (l : List α) (i : Nat) (x y : α) (h : l[i]? = some x) :
    total f (l.set i y) + f x = total f l + f y := by
  induction l generalizing i with
  | nil => simp at h
  | cons a l ih =>
    cases i with
    | zero =>
      simp only [List.getElem?_cons_zero, Option.some.injEq] at h
      subst h
      simp only [List.set_cons_zero, total]
      omega
    | succ i =>
      have := ih i (by simpa using h)
      simp only [List.set_cons_succ, total]
      omega

/-- The number of references that cells own. -/
def edges (h : Heap) : Nat := total (fun c => c.body.children.length) h.cells.toList

theorem edges_setCell (h : Heap) (a : Address) (c d : Cell) (hc : h.cells[a]? = some c) :
    (h.setCell a d).edges + c.body.children.length = h.edges + d.body.children.length := by
  simp only [edges, setCell, Array.toList_setIfInBounds]
  exact total_set (fun c : Cell => c.body.children.length) h.cells.toList a c d (by simpa using hc)

/-- Gives up the pending references one after another, those of an emptied cell first. -/
def releaseAll (pending : List Value) (h : Heap) : EStateM.Result Fault Heap Unit :=
  match pending with
  | [] => .ok () h
  | .unbound :: _ => .error .bounds h
  | .undefined :: rest => releaseAll rest h
  | .null :: rest => releaseAll rest h
  | .bool _ :: rest => releaseAll rest h
  | .ref a :: rest =>
    match hc : h.cells[a]? with
    | none => .error .bounds h
    | some ⟨0, body⟩ => .error (.underflow body.kind) h
    | some ⟨1, body⟩ => releaseAll (body.children ++ rest) (h.setCell a ⟨0, body.emptied⟩)
    | some ⟨n + 2, body⟩ => releaseAll rest (h.setCell a ⟨n + 1, body⟩)
termination_by pending.length + h.edges
decreasing_by
  all_goals simp_wf
  · have := h.edges_setCell a _ ⟨0, body.emptied⟩ hc
    simp only [Body.children_emptied, List.length_nil] at this
    omega
  · have := h.edges_setCell a _ ⟨n + 1, body⟩ hc
    simp only at this
    omega

end Heap

/-- A new cell, owned by the caller. -/
def alloc (b : Body) : HeapM Value := fun h =>
  .ok (.ref h.cells.size) { h with cells := h.cells.push ⟨1, b⟩ }

/-- Makes another reference to a value. -/
def retain (v : Value) : HeapM Unit := fun h =>
  match v with
  | .unbound => .error .bounds h
  | .ref a =>
    match h.cells[a]? with
    | none => .error .bounds h
    | some c => .ok () (h.setCell a { c with count := c.count + 1 })
  | _ => .ok () h

/-- Gives up a reference to a value. -/
def release (v : Value) : HeapM Unit := Heap.releaseAll [v]

/-- Gives up a reference, if the slot that held it was bound. -/
def releaseBound (v : Value) : HeapM Unit :=
  if v.isBound then release v else pure ()

/-- The values one after another; the first that fails ends it. -/
def releaseEach (vs : List Value) : HeapM Unit := vs.forM release

/-- Runs `body` and then gives up `v`, also if `body` fails; a failure to release wins. -/
def consuming {α : Type} (v : Value) (body : HeapM α) : HeapM α :=
  if v.isBound then ensuring body (release v) else throw .bounds

def newInt (n : Int32) : HeapM Value := alloc (.int n)
def newUInt (n : UInt32) : HeapM Value := alloc (.uint n)
def newNumber (x : Double) : HeapM Value := alloc (.number x)
def newString (s : String) : HeapM Value := alloc (.string s)
def newArray (elems : Array Value) : HeapM Value := alloc (.array elems)
def newObject (constructor : Option Address) : HeapM Value := alloc (.object {} constructor)

/-- Throws a new text that names the kind of the error. -/
def raise {α : Type} (kind message : String) : HeapM α := do
  throw (.thrown (← newString (kind ++ ": " ++ message)))

end MethodJit
