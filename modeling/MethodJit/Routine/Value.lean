import MethodJit.Heap.Comparison
import MethodJit.Heap.Property

/-!
# Routines on values

The routines that need the heap only. They consume the references they are given and give a new one;
some of them give back the reference they were given.
-/

namespace MethodJit

/-- Routines from a value to a value. -/
inductive Unary
  | convertS
  | convertI
  | convertU
  | convertD
  | convertB
  | convertO
  | coerceA
  | coerceS
  | coerceO
  | negate
  | negateI
  | increment
  | incrementI
  | decrement
  | decrementI
  | typeOf
  | not
  | bitNot
deriving DecidableEq, Repr

/-- Routines from two values to a value. -/
inductive Binary
  | add
  | addI
  | subtract
  | subtractI
  | multiply
  | multiplyI
  | divide
  | modulo
  | lShift
  | rShift
  | uRShift
  | bitAnd
  | bitOr
  | bitXor
  | equals
  | strictEquals
  | lessThan
  | lessEquals
  | greaterThan
  | greaterEquals
  | inObject
  | instanceOf
  | nextName
  | nextValue
deriving DecidableEq, Repr

/-- Tests of a value that decide a branch. -/
inductive Test
  | ifTrue
  | ifFalse
deriving DecidableEq, Repr

/-- Comparisons of two values that decide a branch. -/
inductive Comparison
  | ifEq
  | ifNe
  | ifLT
  | ifNLT
  | ifLE
  | ifNLE
  | ifGT
  | ifNGT
  | ifGE
  | ifNGE
  | ifStrictEq
  | ifStrictNe
deriving DecidableEq, Repr

/-- Shifts of an unboxed word by a value. -/
inductive Shift
  | left
  | right
  | unsignedRight
deriving DecidableEq, Repr

/-- Routines that take a value and give nothing. -/
inductive Effect
  | retain
  | release
  | releaseBound
  | throw
deriving DecidableEq, Repr

/-- Runs `f` on the number of `x`. -/
def onNumber (x : Value) (f : Double → Double) : HeapM Value :=
  consuming x do newNumeric (f (← numberOf x))

/-- Runs `f` on the word of `x`. -/
def onWord (x : Value) (f : Int32 → Int32) : HeapM Value :=
  consuming x do newInt (f (← wordOf x))

def onNumbers (a b : Value) (f : Double → Double → Double) : HeapM Value :=
  consuming a (consuming b do newNumeric (f (← numberOf a) (← numberOf b)))

def onWords (a b : Value) (f : Int32 → Int32 → Int32) : HeapM Value :=
  consuming a (consuming b do newInt (f (← wordOf a) (← wordOf b)))

/-- Compares two values and gives them up, the second one first. -/
def comparing (a b : Value) (f : Value → Value → HeapM Bool) : HeapM Bool :=
  consuming a (consuming b (f a b))

/-- A value that is converted to a text and kept if it is one. -/
def convertToString (x : Value) : HeapM Value := do
  match ← kindOf x with
  | .string => pure x
  | _ => consuming x do newString (← textOf x)

namespace Unary

def run (r : Unary) (x : Value) : HeapM Value :=
  match r with
  | .convertS => convertToString x
  | .convertI => do
    match (← get).body? x with
    | some (.int _) => pure x
    | _ => consuming x do newInt (← wordOf x)
  | .convertU => do
    match (← get).body? x with
    | some (.uint _) => pure x
    | _ => consuming x do newUInt (← wordOf x).toUInt32
  | .convertD => do
    match ← kindOf x with
    | .number => pure x
    | _ => consuming x do newNumber (← numberOf x)
  | .convertB => consuming x do pure (.bool (← truthOf x))
  | .convertO => do
    let k ← kindOf x
    if k.isNullish then do
      release x
      raise "TypeError" ("cannot convert " ++ k.name ++ " to object")
    else pure x
  | .coerceA => pure x
  | .coerceS => do
    if (← kindOf x).isNullish then pure .null else convertToString x
  | .coerceO => do
    match ← kindOf x with
    | .undefined => pure .null
    | _ => pure x
  | .negate => onNumber x (-·)
  | .negateI => onWord x (-·)
  | .increment => onNumber x (· + .ofNat 1)
  | .incrementI => onWord x (· + 1)
  | .decrement => onNumber x (· - .ofNat 1)
  | .decrementI => onWord x (· - 1)
  | .typeOf => consuming x do newString (← kindOf x).scriptName
  | .not => consuming x do pure (.bool !(← truthOf x))
  | .bitNot => onWord x (~~~ ·)

end Unary

namespace Shift

/-- Shifts `a` by the low five bits of the word of `b`. -/
def run (s : Shift) (a : Int32) (b : Value) : HeapM Value :=
  consuming b do
    let n := (← wordOf b) &&& 31
    match s with
    | .left => newInt (a <<< n)
    | .right => newInt (a >>> n)
    | .unsignedRight => newUInt (a.toUInt32 >>> n.toUInt32)

end Shift

/-- Whether a value is added as a text. -/
def Kind.isTextual : Kind → Bool
  | .string | .object | .array | .function => true
  | _ => false

namespace Binary

def run (r : Binary) (a b : Value) : HeapM Value :=
  match r with
  | .add => consuming a (consuming b do
    if (← kindOf a).isTextual || (← kindOf b).isTextual then
      let s ← textOf a
      let t ← textOf b
      newString (s ++ t)
    else newNumeric ((← numberOf a) + (← numberOf b)))
  | .addI => onWords a b (· + ·)
  | .subtract => onNumbers a b (· - ·)
  | .subtractI => onWords a b (· - ·)
  | .multiply => onNumbers a b (· * ·)
  | .multiplyI => onWords a b (· * ·)
  | .divide => onNumbers a b (· / ·)
  | .modulo => onNumbers a b Double.remainder
  | .lShift => consuming a do Shift.left.run (← wordOf a) b
  | .rShift => consuming a do Shift.right.run (← wordOf a) b
  | .uRShift => consuming a do Shift.unsignedRight.run (← wordOf a) b
  | .bitAnd => onWords a b (· &&& ·)
  | .bitOr => onWords a b (· ||| ·)
  | .bitXor => onWords a b (· ^^^ ·)
  | .equals => Value.bool <$> comparing a b looseEquals
  | .strictEquals => Value.bool <$> comparing a b MethodJit.strictEquals
  | .lessThan => Value.bool <$> comparing a b MethodJit.lessThan
  | .lessEquals => Value.bool <$> comparing b a greaterOrEqual
  | .greaterThan => Value.bool <$> comparing b a MethodJit.lessThan
  | .greaterEquals => Value.bool <$> comparing a b greaterOrEqual
  | .inObject => consuming a (consuming b do
    let name ← textOf a
    let h ← get
    pure (.bool (h.has b name)))
  | .instanceOf => consuming a (consuming b do
    let h ← get
    match h.body? b with
    | some (.function ..) =>
      match h.body? a with
      | some (.object _ (some c)) => pure (.bool (.ref c = b))
      | _ => pure (.bool false)
    | _ => raise "TypeError" "instanceof requires a function")
  | .nextName => consuming a (consuming b do nameAt a (← wordOf b).toInt)
  | .nextValue => consuming a (consuming b do valueAt a (← wordOf b).toInt)

end Binary

def Test.run (t : Test) (x : Value) : HeapM Bool :=
  consuming x do
    match t with
    | .ifTrue => truthOf x
    | .ifFalse => do pure !(← truthOf x)

namespace Comparison

def run (c : Comparison) (a b : Value) : HeapM Bool :=
  match c with
  | .ifEq => comparing a b looseEquals
  | .ifNe => (!·) <$> comparing a b looseEquals
  | .ifLT => comparing a b lessThan
  | .ifNLT => comparing a b notLessThan
  | .ifLE => comparing b a greaterOrEqual
  | .ifNLE => (!·) <$> comparing b a greaterOrEqual
  | .ifGT => comparing b a lessThan
  | .ifNGT => comparing b a notLessThan
  | .ifGE => comparing a b greaterOrEqual
  | .ifNGE => (!·) <$> comparing a b greaterOrEqual
  | .ifStrictEq => comparing a b strictEquals
  | .ifStrictNe => (!·) <$> comparing a b strictEquals

end Comparison

def Effect.run (e : Effect) (x : Value) : HeapM Unit :=
  match e with
  | .retain => MethodJit.retain x
  | .release => MethodJit.release x
  | .releaseBound => MethodJit.releaseBound x
  | .throw => MonadExcept.throw (.thrown x)

/-- The bits that a word and the word of a value have in common. -/
def bitAndWord (b : Value) (a : Int32) : HeapM Int32 :=
  consuming b do pure (a &&& (← wordOf b))

end MethodJit
