import MethodJit.Compiler.Generate
import MethodJit.IR.Printer
import MethodJit.IR.Run
import MethodJit.Interpreter

/-!
# Engines

An engine runs methods. It compiles a method when it is first needed and keeps what came of it, which
all engines share; a method that cannot be compiled is interpreted. Functions of scripts are methods
bound to an engine, or come from the program around; `host` runs them.
-/

namespace MethodJit

open IR

structure EngineConfig where
  /-- Whether methods are compiled at all. -/
  enabled : Bool := false
  /-- Longer code is interpreted; zero stands for no limit. -/
  maxCodeSize : Int := 0
  /-- Whether the text of compiled functions is kept. -/
  dumps : Bool := false
deriving DecidableEq, Repr

structure Engine where
  config : EngineConfig
  global : Value
deriving Repr

/-- What came of the compilation of a method. -/
inductive Compiled
  | native (f : Function) (p : Program)
  | interpreted (why : CodeFault)
deriving Repr

/-- The methods, what is known of them, and the engines. -/
structure World where
  methods : Array Method := #[]
  /-- What came of the compilation of each method. -/
  compiled : Array (Once Compiled) := #[]
  engines : Array Engine := #[]
  /-- The functions of the program around, with their receivers and arguments. -/
  foreign : Array (Value → List Value → Foreign) := #[]
  /-- Whether a defect of a method found by the compiler is raised. -/
  strict : Bool := false
  log : Array LogLine := #[]
  /-- The text of compiled functions. -/
  dump : String := ""

/-- Actions on the heap and the world. -/
abbrev Run := EStateM Fault (Store World)

namespace Run

variable {α : Type}

def world : Run World := fun s => .ok s.host s

def modifyWorld (f : World → World) : Run Unit := fun ⟨heap, host⟩ => .ok () ⟨heap, f host⟩

def onHeap (x : HeapM α) : Run α := onStoredHeap x

/-- Writes log lines about a method. -/
def log (m : Method) (lines : List LogLine) : Run Unit :=
  let named := lines.map fun l =>
    { l with fields := ("method", .text m.name) :: l.fields.filter (·.1 ≠ "method") }
  modifyWorld fun w => { w with log := w.log ++ named.toArray }

def methodAt (i : Nat) : Run Method := do
  match (← world).methods[i]? with
  | some m => pure m
  | none => throw .bounds

def engineAt (i : Nat) : Run Engine := do
  match (← world).engines[i]? with
  | some e => pure e
  | none => throw .bounds

def foreignAt (i : Nat) : Run (Value → List Value → Foreign) := do
  match (← world).foreign[i]? with
  | some f => pure f
  | none => throw .bounds

/-- Leaves a method to the interpreter, and logs why. -/
def leave (m : Method) (why : CodeFault) : Run Compiled := do
  log m [{ level := .info, message := "interpreting", fields := [("error", .text why.message)] }]
  pure (.interpreted why)

/-- Lowers the function of a method. -/
def lower (config : EngineConfig) (m : Method) (f : Function) : Run Compiled := do
  match f.lower with
  | .error e =>
    let line : LogLine :=
      { level := .error, message := "generated invalid code", fields := [("error", .text e.message)] }
    log m [line]
    throw (.code (.text e.message))
  | .ok p =>
    if config.dumps then
      let text := (f.text? .plain).getD ""
      modifyWorld fun w => { w with dump := w.dump ++ text }
    let fields := [("blocks", .number f.blocks.size), ("instructions", .number f.numInstrs)]
    log m [{ level := .debug, message := "compiled", fields }]
    pure (.native f p)

/-- Generates the code of a valid method and lowers what came of it. -/
def generate (config : EngineConfig) (m : Method) : Run Compiled := do
  let g := Compiler.generate m
  log m g.log.toList
  match g.fault with
  | none => lower config m g.function
  | some (.code why) => do
    if (← world).strict then throw (.code why) else leave m why
  | some e => throw e

/-- Compiles a method. -/
def compileWith (config : EngineConfig) (m : Method) : Run Compiled := do
  if !config.enabled then pure (.interpreted .disabled)
  else if 0 < config.maxCodeSize ∧ config.maxCodeSize < m.bytes.size then
    leave m (.tooLong m.bytes.size config.maxCodeSize)
  else match m.problem? with
    | some p => leave m (.invalid m.name p)
    | none => generate config m

/-- What came of the compilation of a method, which is compiled if it has not been yet. -/
def compile (engine method : Nat) : Run Compiled := do
  let m ← methodAt method
  match ((← world).compiled[method]?).bind Once.held with
  | some c => pure c
  | none => do
    let c ← compileWith (← engineAt engine).config m
    let slot := ((← world).compiled[method]?).getD {}
    let (slot, c) := slot.publish c
    modifyWorld fun w => { w with compiled := w.compiled.setIfInBounds method slot }
    pure c

/-- How a call can fail. -/
inductive CallFault
  | code (e : CodeFault)
  | thrown (v : Value)
deriving DecidableEq, Repr

/-- The text that reports a failed call. -/
def CallFault.report : CallFault → HeapM String
  | .code e => pure e.message
  | .thrown v => do pure ("uncaught exception: " ++ (← textOf v))

/-- Runs what came of the compilation in the frame of a machine. A compiled method that gives nothing
gives undefined. -/
def execute (host : Host World) (fuel : Nat) (c : Compiled) : Act World Value :=
  match c with
  | .interpreted _ => Interpreter.interpret host fuel
  | .native _ p => do
    let v ← p.start host fuel
    pure (if v.isBound then v else .undefined)

/-- Tells the failures that a call reports from those that it passes on. -/
def settle (c : Compiled) (r : Except Fault Value) : Except Fault (Except CallFault Value) :=
  match c, r with
  | _, .ok v => .ok (.ok v)
  | _, .error (.thrown v) => .ok (.error (.thrown v))
  | .interpreted _, .error (.code e) => .ok (.error (.code e))
  | _, .error e => .error e

/-- Runs a method in a frame, and gives up what the frame owns, however the run ends. -/
def invoke (host : Host World) (fuel : Nat) (c : Compiled) (f : Frame) :
    Run (Except CallFault Value) :=
  inFrame f do
    let r ← attempt (execute host fuel c)
    releaseFrame
    ofExcept (settle c r)

/-- Calls a method with a receiver and arguments, which are borrowed. Functions that it calls are run by
`host`. -/
def callWith (host : Host World) (fuel engine method : Nat) (receiver : Value) (args : List Value) :
    Run (Except CallFault Value) := do
  let c ← compile engine method
  let m ← methodAt method
  match Frame.make? m receiver args (← engineAt engine).global with
  | none => throw .bounds
  | some f => invoke host fuel c f

/-- Runs functions that are methods or come from the program around, at most `depth` of them at a time. A
defect of a method is thrown as an error. -/
def host (fuel : Nat) : Nat → Host World
  | 0 => fun _ _ _ _ => throw .exhausted
  | depth + 1 => fun engine index receiver args =>
    match engine with
    | none => do ((← foreignAt index) receiver args).run (host fuel depth)
    | some engine => do
      match ← callWith (host fuel depth) fuel engine index receiver args with
      | .ok v => pure v
      | .error (.thrown v) => throw (.thrown v)
      | .error (.code e) => onHeap (raise "VerifyError" e.message)

/-- Calls a method. -/
def call (fuel depth engine method : Nat) (receiver : Value) (args : List Value) :
    Run (Except CallFault Value) :=
  callWith (host fuel depth) fuel engine method receiver args

/-- Makes an engine, which holds its own reference to the global object, and gives its position. -/
def newEngine (config : EngineConfig) (global : Value) : Run Nat := do
  let global := if global.isBound then global else .null
  onHeap (retain global)
  let n := (← world).engines.size
  modifyWorld fun w => { w with engines := w.engines.push ⟨config, global⟩ }
  pure n

/-- Closes an engine: it gives up its global object. -/
def close (engine : Nat) : Run Unit := do
  let e ← engineAt engine
  onHeap (release e.global)
  modifyWorld fun w =>
    { w with engines := w.engines.setIfInBounds engine { e with global := .null } }

/-- Stores a property of the global object of an engine. -/
def define (engine : Nat) (name : String) (v : Value) : Run Unit := do
  onHeap (setProperty (← engineAt engine).global name v)

end Run

/-- A world with methods that have not been compiled. -/
def World.ofMethods (methods : Array Method) (strict : Bool) : World where
  methods
  compiled := .replicate methods.size {}
  strict

end MethodJit
