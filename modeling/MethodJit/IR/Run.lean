import MethodJit.IR.Lower

/-!
# Runs of programs

A program runs with registers that are blank at first, except for those of the parameters. `Program.run`
goes from block to block for a given number of blocks at most.
-/

namespace MethodJit.IR

variable {σ : Type}

abbrev Registers := Array Word

/-- The word of a register. -/
def Registers.at (regs : Registers) (v : ValueId) : Word := regs[v]?.getD .blank

/-- Checks that a register holds the frame. -/
def checkFrame (w : Word) : Act σ Unit :=
  match w with
  | .context => pure ()
  | _ => throw .bounds

def Step.exec (host : Host σ) (s : Step) (regs : Registers) : Act σ Registers :=
  match s with
  | .const r n => pure (regs.setIfInBounds r (.int n))
  | .loadLocals r f => do
    checkFrame (regs.at f)
    pure (regs.setIfInBounds r (.area (← frame).locals))
  | .loadStack r f => do
    checkFrame (regs.at f)
    pure (regs.setIfInBounds r (.area (← frame).stack))
  | .loadIndex r f => do
    checkFrame (regs.at f)
    pure (regs.setIfInBounds r (.int (← frame).stackIndex))
  | .storeLocals f x => do
    checkFrame (regs.at f)
    modifyFrame fun fr => { fr with locals := (regs.at x).toArea }
    pure regs
  | .storeStack f x => do
    checkFrame (regs.at f)
    modifyFrame fun fr => { fr with stack := (regs.at x).toArea }
    pure regs
  | .storeIndex f x => do
    checkFrame (regs.at f)
    modifyFrame fun fr => { fr with stackIndex := (regs.at x).toInt }
    pure regs
  | .loadElem r s i => do
    let v ← readSlot (fun _ => (regs.at s).toArea) (regs.at i).toInt
    pure (regs.setIfInBounds r (.value v))
  | .storeElem s i x => do
    writeSlot (fun _ => (regs.at s).toArea) (regs.at i).toInt (regs.at x).toValue
    pure regs
  | .add r x y =>
    pure (regs.setIfInBounds r (.int ((regs.at x).toInt32 + (regs.at y).toInt32).toInt64))
  | .call r routine args => do
    let w ← routine.call host (args.map regs.at)
    pure (if r = 0 then regs else regs.setIfInBounds r w)

def execSteps (host : Host σ) : List Step → Registers → Act σ Registers
  | [], regs => pure regs
  | s :: ss, regs => do execSteps host ss (← s.exec host regs)

/-- Where a program goes after a block. -/
inductive Leave
  | goto (block : Nat)
  | done (result : Value)
  | trapped (t : Trap)
deriving DecidableEq, Repr

def Exit.leave (e : Exit) (regs : Registers) : Leave :=
  match e with
  | .jump target => .goto target
  | .branch v taken notTaken => .goto (if (regs.at v).toInt ≠ 0 then taken else notTaken)
  | .ret v => .done (regs.at v).toValue
  | .retVoid => .done .undefined
  | .trap t => .trapped t

namespace Program

/-- Runs a program from a block on, for at most `fuel` blocks. -/
def run (host : Host σ) (p : Program) : Nat → Nat → Registers → Act σ Value
  | 0, _, _, m => .error .exhausted m
  | fuel + 1, i, regs, m =>
    match p.blocks[i]? with
    | none => .error .bounds m
    | some b =>
      match execSteps host b.steps regs m with
      | .error e m => .error e m
      | .ok regs m =>
        match b.exit.leave regs with
        | .goto i => run host p fuel i regs m
        | .done v => .ok v m
        | .trapped t => .error (.trap t) m

/-- The registers at the start of a run in a frame. -/
def initialRegisters (p : Program) (f : Frame) : Registers :=
  (((Array.replicate p.registers Word.blank).setIfInBounds paramLocals (.area f.locals)).setIfInBounds
    paramStack (.area f.stack)).setIfInBounds paramFrame .context

/-- Runs a program in the frame of the machine. The result can be unbound. -/
def start (host : Host σ) (p : Program) (fuel : Nat) : Act σ Value := do
  run host p fuel 0 (p.initialRegisters (← frame))

end Program

end MethodJit.IR
