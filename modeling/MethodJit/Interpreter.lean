import MethodJit.Code.Instruction
import MethodJit.Code.Layout

/-!
# The interpreter

`Interpreter.step` carries out the instruction at a position and tells where the run goes on.
`Interpreter.run` repeats it for a given number of steps at most. Immediates are read at the moment
they are needed, so an instruction whose immediate is missing may have had effects before.
-/

namespace MethodJit.Interpreter

variable {σ α : Type}

/-- Where a run goes after an instruction. -/
inductive Next
  | goto (pos : Nat)
  | done (result : Value)
deriving DecidableEq, Repr

/-- Reads code from a position on, and gives the position after what was read. -/
def fetch (code : Array UInt8) (pos : Nat) (read : Cursor.Read α) : Act σ (α × Nat) := fun m =>
  match read ⟨code, pos⟩ with
  | .ok a c => .ok (a, c.pos) m
  | .error e _ => .error (.code e) m

/-- The index of a local. -/
def fetchLocal (code : Array UInt8) (pos : Nat) : Act σ (Nat × Nat) := do
  fetch code pos (Cursor.index .locals (← frame).localSlots.size)

/-- Checks the index of a local that the instruction implies. -/
def checkFixed (i : Nat) : Act σ Unit := do
  if (← frame).localSlots.size ≤ i then throw (.code (.noLocal i))

/-- Replaces a local and gives up the displaced value. -/
def setLocal (i : Nat) (x : Value) : Act σ Unit := do
  let old ← readLocal (.ofNat i)
  writeLocal (.ofNat i) x
  onHeap (releaseBound old)

/-- Reads the distance of a branch, and takes the branch or not. -/
def branch (code : Array UInt8) (pos : Nat) (take : Bool) : Act σ Next := do
  let (d, pos) ← fetch code pos Cursor.s24
  if take then do
    let (_, pos) ← fetch code pos (Cursor.seek (pos + d))
    pure (.goto pos)
  else pure (.goto pos)

/-- The case of a switch that a word selects. -/
def selectCase (fallback : Int) (cases : List Int) (i : Int32) : Int :=
  if i < 0 then fallback else (cases[i.toNatClampNeg]?).getD fallback

/-- Carries out an instruction that starts at `start` and whose immediates start at `pos`. -/
def perform (host : Host σ) (code : Array UInt8) (start pos : Nat) (byte : UInt8) (a : Action) :
    Act σ Next :=
  match a with
  | .none => pure (.goto pos)
  | .debug => do
    let (_, pos) ← fetch code pos do
      let _ ← Cursor.byte
      let _ ← Cursor.u30
      let _ ← Cursor.byte
      Cursor.u30
    pure (.goto pos)
  | .note => do
    let (_, pos) ← fetch code pos Cursor.u30
    pure (.goto pos)
  | .pushByte => do
    let (n, pos) ← fetch code pos Cursor.byte
    push (← onHeap (newInt (signExtend8 n)))
    pure (.goto pos)
  | .pushShort => do
    let (n, pos) ← fetch code pos Cursor.u30
    push (← onHeap (newInt (signExtend16 n)))
    pure (.goto pos)
  | .pop => do
    let x ← pop
    onHeap (release x)
    pure (.goto pos)
  | .dup => do
    let x ← pop
    onHeap (retain x)
    push x
    push x
    pure (.goto pos)
  | .swap => do
    let b ← pop
    let a ← pop
    push b
    push a
    pure (.goto pos)
  | .getLocal => do
    let (i, pos) ← fetchLocal code pos
    pushShared (← readLocal (.ofNat i))
    pure (.goto pos)
  | .getFixed i => do
    checkFixed i
    pushShared (← readLocal (.ofNat i))
    pure (.goto pos)
  | .setLocal => do
    let (i, pos) ← fetchLocal code pos
    setLocal i (← pop)
    pure (.goto pos)
  | .setFixed i => do
    checkFixed i
    setLocal i (← pop)
    pure (.goto pos)
  | .kill => do
    let (i, pos) ← fetchLocal code pos
    setLocal i .undefined
    pure (.goto pos)
  | .stepLocal r => do
    let (i, pos) ← fetchLocal code pos
    let x ← readLocal (.ofNat i)
    onHeap (retain x)
    setLocal i (← onHeap (r.run x))
    pure (.goto pos)
  | .returnVoid => pure (.done .undefined)
  | .returnValue => do pure (.done (← pop))
  | .throw => do throw (.thrown (← pop))
  | .supply s => do
    push (← s.run)
    pure (.goto pos)
  | .constant c => do
    let pool := (← frame).method.constants
    let (i, pos) ← fetch code pos <| match c with
      | .pushInt => Cursor.index .ints pool.ints.size
      | .pushUInt => Cursor.index .uints pool.uints.size
      | .pushDouble => Cursor.index .doubles pool.doubles.size
      | .pushString => Cursor.index .strings pool.strings.size
    push (← c.run (.ofNat i))
    pure (.goto pos)
  | .frame a => do
    a.run
    pure (.goto pos)
  | .scopeObject => do
    let (i, pos) ← fetch code pos Cursor.byte
    IndexedAction.getScopeObject.run host (.ofNat i)
    pure (.goto pos)
  | .named a => do
    let (i, pos) ← fetch code pos (Cursor.index .names (← frame).method.constants.names.size)
    a.run host (.ofNat i)
    pure (.goto pos)
  | .counted a => do
    let (n, pos) ← fetch code pos Cursor.u30
    a.run host (.ofNat n)
    pure (.goto pos)
  | .namedCounted a => do
    let (i, pos) ← fetch code pos (Cursor.index .names (← frame).method.constants.names.size)
    let (n, pos) ← fetch code pos Cursor.u30
    a.run host (.ofNat i) (.ofNat n)
    pure (.goto pos)
  | .hasNext2 => do
    let (i, pos) ← fetchLocal code pos
    let (j, pos) ← fetchLocal code pos
    PairAction.hasNext2.run host (.ofNat i) (.ofNat j)
    pure (.goto pos)
  | .unary r => do
    push (← onHeap (r.run (← pop)))
    pure (.goto pos)
  | .binary r => do
    let b ← pop
    let a ← pop
    push (← onHeap (r.run a b))
    pure (.goto pos)
  | .test t => do
    let take ← onHeap (t.run (← pop))
    branch code pos take
  | .compare c => do
    let b ← pop
    let a ← pop
    let take ← onHeap (c.run a b)
    branch code pos take
  | .jump => do
    let (d, pos) ← fetch code pos Cursor.s24
    IndexedAction.jump.run host (.ofInt d)
    let (_, pos) ← fetch code pos (Cursor.seek (pos + d))
    pure (.goto pos)
  | .lookupSwitch => do
    let ((fallback, cases), pos) ← fetch code pos readSwitch
    let x ← pop
    let i := (← get).heap.toInt32 x
    onHeap (release x)
    let (_, pos) ← fetch code pos (Cursor.seek (start + selectCase fallback cases i))
    pure (.goto pos)
  | .unsupported => throw (.code (.unsupported byte start))

/-- Carries out the instruction at a position. -/
def step (host : Host σ) (code : Array UInt8) (pos : Nat) : Act σ Next :=
  match code[pos]? with
  | none => throw (.code (.noEndAt pos))
  | some byte => perform host code pos (pos + 1) byte (actionOfByte byte)

/-- Runs code from a position on, for at most `fuel` instructions. -/
def run (host : Host σ) (code : Array UInt8) : Nat → Nat → Act σ Value
  | 0, _, m => .error .exhausted m
  | fuel + 1, pos, m =>
    match step host code pos m with
    | .ok (.goto pos) m => run host code fuel pos m
    | .ok (.done v) m => .ok v m
    | .error e m => .error e m

/-- Reports code that ends too early in one way. -/
def reporting (x : Act σ α) : Act σ α := fun m =>
  match x m with
  | .ok a m => .ok a m
  | .error (.code e) m => .error (.code e.reported) m
  | .error e m => .error e m

/-- Binds the arguments of the frame and runs its method. -/
def interpret (host : Host σ) (fuel : Nat) : Act σ Value :=
  reporting do
    bindArguments
    run host (← frame).method.bytes fuel 0

end MethodJit.Interpreter
