import MethodJit.Heap.Conversion

/-!
# Comparisons

Strict equality compares numbers and texts by what they are and other values by identity. Equality
also converts between types. The order compares two texts as texts and everything else as numbers; it
is undefined when one of them is NaN.
-/

namespace MethodJit

/-- Equality of values of the kinds `k` and `l`. -/
def Heap.strictEqualsAt (h : Heap) (k l : Kind) (a b : Value) : Bool :=
  if k.isNumeric && l.isNumeric then (h.toNumber a).equal (h.toNumber b)
  else if k ≠ l then false
  else match h.body? a, h.body? b with
    | some (.string s), some (.string t) => s = t
    | _, _ => a = b

def strictEquals (a b : Value) : HeapM Bool := do
  let k ← kindOf a
  let l ← kindOf b
  let h ← get
  pure (h.strictEqualsAt k l a b)

/-- Whether the numbers that two values stand for are equal. -/
def numericallyEqual (a b : Value) : HeapM Bool := do
  pure ((← numberOf a).equal (← numberOf b))

def looseEquals (a b : Value) : HeapM Bool := do
  let k ← kindOf a
  let l ← kindOf b
  if k.isNullish || l.isNullish then pure (k.isNullish && l.isNullish)
  else if k = l || (k.isNumeric && l.isNumeric) then
    let h ← get
    pure (h.strictEqualsAt k l a b)
  else if k = .boolean || l = .boolean || (k.isNumeric && l = .string) ||
      (k = .string && l.isNumeric) then numericallyEqual a b
  else if l = .string || l.isNumeric || k = .string || k.isNumeric then do
    let s ← textOf a
    let t ← textOf b
    if s = t then pure true else numericallyEqual a b
  else pure (a = b)

/-- The outcome of a comparison. -/
structure Order where
  less : Bool
  undefined : Bool
deriving DecidableEq, Repr

def Heap.compare (h : Heap) (a b : Value) : Order :=
  match h.body? a, h.body? b with
  | some (.string s), some (.string t) => ⟨s < t, false⟩
  | _, _ =>
    let x := h.toNumber a
    let y := h.toNumber b
    if x.isNaN || y.isNaN then ⟨false, true⟩ else ⟨x.less y, false⟩

def lessThan (a b : Value) : HeapM Bool := fun h => .ok (h.compare a b).less h

/-- Less than is false or undefined. -/
def notLessThan (a b : Value) : HeapM Bool := fun h => .ok (!(h.compare a b).less) h

/-- Less than is false and defined. -/
def greaterOrEqual (a b : Value) : HeapM Bool := fun h =>
  let o := h.compare a b
  .ok (!o.less && !o.undefined) h

end MethodJit
