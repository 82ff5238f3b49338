import MethodJit.Frame
import MethodJit.Routine.Value

/-!
# Routines on frames

The routines that work on the operand stack, the locals and the scopes of the present frame, and
those that call functions. A function that is called borrows its receiver and arguments; they are
given up afterwards, however the call ends.
-/

namespace MethodJit

/-- Routines that take the frame only. -/
inductive FrameAction
  | pushScope
  | popScope
  | pushWith
  | bindArguments
deriving DecidableEq, Repr

/-- Routines that take the frame and a number. -/
inductive IndexedAction
  | getScopeObject
  | findPropStrict
  | findProperty
  | getLex
  | getProperty
  | setProperty
  | initProperty
  | deleteProperty
  | call
  | construct
  | newObject
  | newArray
  | jump
deriving DecidableEq, Repr

/-- Routines that take the frame and two numbers. -/
inductive PairAction
  | callProperty
  | callPropLex
  | callPropVoid
  | constructProp
  | hasNext2
deriving DecidableEq, Repr

/-- Routines that give a value without taking it from the stack. -/
inductive Supply
  | pushNull
  | pushUndefined
  | pushTrue
  | pushFalse
  | pushNaN
  | getGlobalScope
deriving DecidableEq, Repr

/-- Routines that give a constant of the method. -/
inductive Constant
  | pushInt
  | pushUInt
  | pushDouble
  | pushString
deriving DecidableEq, Repr

variable {σ : Type}

/-- The entry of a table at an index. -/
def entryAt {α : Type} (table : Array α) (i : Int32) : Act σ α :=
  if i < 0 then throw .bounds
  else match table[i.toNatClampNeg]? with
    | some x => pure x
    | none => throw .bounds

def Supply.run (s : Supply) : Act σ Value :=
  match s with
  | .pushNull => pure .null
  | .pushUndefined => pure .undefined
  | .pushTrue => pure (.bool true)
  | .pushFalse => pure (.bool false)
  | .pushNaN => onHeap (newNumber .nan)
  | .getGlobalScope => do
    let f ← frame
    onHeap (shared ((f.scope[0]?).getD f.global))

def Constant.run (c : Constant) (i : Int32) : Act σ Value := do
  let pool := (← frame).method.constants
  match c with
  | .pushInt => do onHeap (newInt (← entryAt pool.ints i))
  | .pushUInt => do onHeap (newUInt (← entryAt pool.uints i))
  | .pushDouble => do onHeap (newNumber (← entryAt pool.doubles i))
  | .pushString => do onHeap (newString (← entryAt pool.strings i))

/-- The property name at an index of the constants. -/
def nameConstant (i : Int32) : Act σ String := do
  entryAt (← frame).method.constants.names i

/-- Makes a value the innermost scope. -/
def enterScope (v : Value) : Act σ Unit :=
  modifyFrame fun f => { f with scope := f.scope.push v }

/-- Writes values to the locals from `i` on, a new reference to each. -/
def bindFrom : Int64 → List Value → Act σ Unit
  | _, [] => pure ()
  | i, v :: vs => do
    onHeap (retain v)
    writeLocal i v
    bindFrom (i + 1) vs

/-- The argument of each parameter, or undefined. -/
def parameterValues (count : Nat) (args : List Value) : List Value :=
  args.take count ++ List.replicate (count - args.length) .undefined

/-- Binds the parameters, if there are locals for them. -/
def bindParameters (size : Nat) (m : Method) (args : List Value) : Act σ Unit :=
  if (size : Int) < 1 + m.params.toInt then throw .bounds
  else bindFrom 1 (parameterValues m.params.toNatClampNeg args)

/-- What the array of arguments holds: all of them, or the further ones. -/
def collectedArguments (m : Method) (args : List Value) : Option (List Value) :=
  if m.flags.needArguments then some args
  else if m.params < 0 then none
  else some (args.drop m.params.toNatClampNeg)

/-- Binds the array of arguments, if the method has one, and gives the number of locals that are bound
then. -/
def bindCollected (m : Method) (args : List Value) : Act σ Int64 :=
  if 0 ≤ m.argumentsSlot then
    match collectedArguments m args with
    | none => throw .bounds
    | some extra => do
      extra.forM fun v => onHeap (retain v)
      writeLocal m.argumentsSlot (← onHeap (newArray extra.toArray))
      pure (1 + m.params + 1)
  else pure (1 + m.params)

/-- Makes the locals from `n` on undefined. -/
def bindRest (size : Nat) (n : Int64) : Act σ Unit :=
  if n < 0 then throw .bounds
  else bindFrom n (List.replicate (size - n.toNatClampNeg) .undefined)

/-- Binds the locals: the receiver, the parameters, the array of all or of the further arguments, and
undefined for the others. -/
def bindArguments : Act σ Unit := do
  let f ← frame
  let size := f.localSlots.size
  onHeap (retain f.receiver)
  writeLocal 0 f.receiver
  bindParameters size f.method f.args
  let n ← bindCollected f.method f.args
  bindRest size n

def FrameAction.run (a : FrameAction) : Act σ Unit :=
  match a with
  | .pushScope => do enterScope (← pop)
  | .popScope => do
    let f ← frame
    match f.scope.back? with
    | none => onHeap (raise "VerifyError" "scope stack underflow")
    | some x =>
      modifyFrame fun f => { f with scope := f.scope.pop }
      onHeap (release x)
  | .pushWith => do
    let x ← pop
    let k ← onHeap (kindOf x)
    if k.isNullish then onHeap (raise "TypeError" ("cannot use " ++ k.name ++ " as scope"))
    else enterScope x
  | .bindArguments => MethodJit.bindArguments

/-- The innermost scope that has the property, or the global object if it has it. -/
def findScope? (name : String) : Act σ (Option Value) := fun m =>
  let found := m.frame.scope.toList.reverse.find? fun v => m.heap.has v name
  let found := found.orElse fun _ =>
    if m.heap.has m.frame.global name then some m.frame.global else none
  .ok found m

/-- The scope that has the property; an error is thrown if there is none. -/
def findScope (name : String) : Act σ Value := do
  match ← findScope? name with
  | some x => pure x
  | none => onHeap (raise "ReferenceError" (name ++ " is not defined"))

/-- Pushes a new reference to a value. -/
def pushShared (v : Value) : Act σ Unit := do
  onHeap (retain v)
  push v

/-- Runs a function. -/
def apply (host : Host σ) (name : String) (c : Callable) (receiver : Value) (args : List Value) :
    EStateM Fault (Store σ) Value :=
  match c with
  | .native n => onStoredHeap (n.run name receiver args)
  | .method engine index => host (some engine) index receiver args
  | .foreign index => host none index receiver args

/-- Runs a function of the program around. Only what is a function can be called. -/
def Foreign.run (host : Host σ) : Foreign → EStateM Fault (Store σ) Value
  | .give v => pure v
  | .throw v => MonadExcept.throw (.thrown v)
  | .stop => MonadExcept.throw .bounds
  | .look next => fun st => (next st.heap).run host st
  | .put heap next => fun st => next.run host { st with heap }
  | .call fn receiver args next => do
    match (← get).heap.body? fn with
    | some (.function name c) => do
      let outcome ← catching (apply host name c receiver args)
      (next outcome).run host
    | _ => MonadExcept.throw .bounds

/-- Calls a value with a receiver and arguments and gives all of them up. -/
def callValue (host : Host σ) (fn receiver : Value) (args : List Value) : Act σ Value :=
  consumingAct fn <| consumingAct receiver <|
    ensuring (do
      match (← get).heap.body? fn with
      | some (.function name c) => onStore (apply host name c receiver args)
      | _ => onHeap do
        raise "TypeError" ((← kindOf fn).scriptName ++ " is not a function"))
    (onHeap (releaseEach args))

/-- Runs the function of a construction. If it fails, the new object is abandoned. -/
def abandoning {α : Type} (this : Value) (x : Act σ α) : Act σ α := fun m =>
  match x m with
  | .ok a m => .ok a m
  | .error e ⟨heap, frame, host⟩ =>
    .error e ⟨{ heap with abandoned := this :: heap.abandoned }, frame, host⟩

/-- Runs a function with a new object as its receiver. If the function gives an object, an array or a
function, that replaces the new object. -/
def constructWith (host : Host σ) (fn : Address) (name : String) (c : Callable) (args : List Value) :
    Act σ Value := do
  let this ← onHeap (newObject (some fn))
  let result ← abandoning this (onStore (apply host name c this args))
  match ← onHeap (kindOf result) with
  | .object | .array | .function =>
    onHeap (release this)
    pure result
  | _ =>
    onHeap (release result)
    pure this

/-- Constructs an object with a value and arguments and gives all of them up. -/
def constructValue (host : Host σ) (fn : Value) (args : List Value) : Act σ Value :=
  consumingAct fn <|
    ensuring (do
      match fn, (← get).heap.body? fn with
      | .ref a, some (.function name c) => constructWith host a name c args
      | _, _ => onHeap do
        raise "TypeError" ((← kindOf fn).scriptName ++ " is not a constructor"))
    (onHeap (releaseEach args))

/-- Stores names and values, which alternate in the list, in an object. -/
def storePairs (o : Value) : List Value → HeapM Unit
  | name :: v :: rest => do
    setProperty o (← textOf name) v
    release name
    storePairs o rest
  | _ => pure ()

def IndexedAction.run (host : Host σ) (a : IndexedAction) (i : Int32) : Act σ Unit :=
  match a with
  | .getScopeObject => do
    let f ← frame
    if (f.scope.size : Int) ≤ i.toInt then
      let n := i.toInt
      onHeap (raise "VerifyError" s!"scope index {n} out of range")
    else pushShared (← entryAt f.scope i)
  | .findPropStrict => do
    let name ← nameConstant i
    pushShared (← findScope name)
  | .findProperty => do
    let name ← nameConstant i
    let found ← findScope? name
    pushShared (found.getD (← frame).global)
  | .getLex => do
    let name ← nameConstant i
    let x ← findScope name
    push (← onHeap (MethodJit.getProperty x name))
  | .getProperty => do
    let x ← pop
    consumingAct x do
      let name ← nameConstant i
      push (← onHeap (MethodJit.getProperty x name))
  | .setProperty | .initProperty => do
    let v ← pop
    let x ← pop
    consumingAct x do
      let name ← nameConstant i
      onHeap (MethodJit.setProperty x name v)
  | .deleteProperty => do
    let x ← pop
    consumingAct x do
      let name ← nameConstant i
      push (.bool (← onHeap (MethodJit.deleteProperty x name)))
  | .call => do
    let args ← popMany i
    let receiver ← pop
    let fn ← pop
    push (← callValue host fn receiver args)
  | .construct => do
    let args ← popMany i
    let fn ← pop
    push (← constructValue host fn args)
  | .newObject => do
    let pairs ← popMany (2 * i)
    let o ← onHeap (MethodJit.newObject none)
    onHeap (storePairs o pairs)
    push o
  | .newArray => do
    let elems ← popMany i
    push (← onHeap (MethodJit.newArray elems.toArray))
  | .jump => modifyFrame fun f => { f with jumps := f.jumps + 1 }

/-- Calls the property of the topmost operand below the arguments. A lexical call has the receiver
null. -/
def callNamed (host : Host σ) (i argc : Int32) (lexical : Bool) : Act σ Value := do
  let args ← popMany argc
  let x ← pop
  let name ← nameConstant i
  let fn ← onHeap (getProperty x name)
  if lexical then do
    onHeap (release x)
    callValue host fn .null args
  else callValue host fn x args

/-- Moves the enumeration, which two locals hold, to its next position, and pushes whether there is
one. At the end the local of the object becomes null. -/
def hasNext2 (objectReg indexReg : Int32) : Act σ Unit := do
  let x ← readLocal objectReg.toInt64
  let old ← readLocal indexReg.toInt64
  let h := (← get).heap
  let next := h.nextIndex x (h.toInt32 old).toInt
  writeLocal indexReg.toInt64 (← onHeap (newInt (.ofInt next)))
  onHeap (release old)
  if next = 0 then do
    writeLocal objectReg.toInt64 .null
    onHeap (release x)
  push (.bool (next ≠ 0))

def PairAction.run (host : Host σ) (a : PairAction) (i j : Int32) : Act σ Unit :=
  match a with
  | .callProperty => do push (← callNamed host i j false)
  | .callPropLex => do push (← callNamed host i j true)
  | .callPropVoid => do
    let result ← callNamed host i j false
    onHeap (release result)
  | .constructProp => do
    let args ← popMany j
    let x ← pop
    consumingAct x do
      let name ← nameConstant i
      let fn ← onHeap (getProperty x name)
      push (← constructValue host fn args)
  | .hasNext2 => MethodJit.hasNext2 i j

/-- Gives up the locals, and unbinds them. -/
def releaseLocals : Nat → Int64 → Act σ Unit
  | 0, _ => pure ()
  | n + 1, i => do
    let x ← readLocal i
    if x.isBound then do
      onHeap (release x)
      writeLocal i .unbound
    releaseLocals n (i + 1)

/-- Gives up the operands below the stack index, and unbinds them. -/
def releaseOperands : Nat → Int64 → Act σ Unit
  | 0, _ => pure ()
  | n + 1, i => do
    let x ← readSlot Frame.stack i
    onHeap (release x)
    writeSlot Frame.stack i .unbound
    releaseOperands n (i + 1)

/-- Gives up what the frame owns: locals, operands and scopes. -/
def releaseFrame : Act σ Unit := do
  let f ← frame
  releaseLocals f.localSlots.size 0
  releaseOperands f.stackIndex.toNatClampNeg 0
  modifyFrame fun f => { f with stackIndex := 0 }
  f.scope.toList.forM fun x => onHeap (release x)
  modifyFrame fun f => { f with scope := #[] }

end MethodJit
