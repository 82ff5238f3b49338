import Mathlib.Tactic
import MethodJit.Proofs.Comparison
import MethodJit.Proofs.Defects
import MethodJit.Proofs.Immediate

/-!
# Deferred operands and locals

An `Operation` moves values between the operands and the locals of an invocation. It can be performed at
once, on the frame, or emitted: then it changes what the emitter holds pending, and code appears only where
it has to. A block of emitted operations that ends with everything stored leaves the frame, and all objects
that were there before, as the operations do at once.
-/

namespace MethodJit.Compiler

open IR

/-- Where a value comes from: a number, a routine of the frame, or another local. Code names locals and
constants by words of 32 bits. -/
inductive Source
  | int (n : Int32)
  | supply (name : String) (r : Supply)
  | constant (name : String) (c : Constant) (i : Int32)
  | copy (i : Int32)

inductive Operation
  | push (s : Source)
  | assign (i : Int32) (s : Source)
  /-- Gives the topmost operand up. -/
  | discard
  /-- Moves the topmost operand to a local. -/
  | store (i : Int32)
  | dup
  | swap
  | sync
  | syncLocals

variable {σ : Type}

/-! ## At once -/

namespace Source

/-- Makes the value. -/
def perform : Source → Act σ Value
  | .int n => onHeap (newInt n)
  | .supply _ r => r.run
  | .constant _ c i => c.run i
  | .copy i => do
    let v ← readLocal i.toInt64
    onHeap (retain v)
    pure v

/-- The locals are among the first `n`. -/
def Within (n : Nat) : Source → Prop
  | .copy i => 0 ≤ i ∧ i.toNatClampNeg < n
  | _ => True

end Source

/-- Replaces a local and gives up the displaced value. -/
def putLocal (i : Int32) (v : Value) : Act σ Unit := do
  let old ← readLocal i.toInt64
  writeLocal i.toInt64 v
  onHeap (releaseBound old)

namespace Operation

/-- Performs the operation on the frame. There is nothing pending to store. -/
def perform : Operation → Act σ Unit
  | .push s => do MethodJit.push (← s.perform)
  | .assign i s => do putLocal i (← s.perform)
  | .discard => do onHeap (release (← pop))
  | .store i => do putLocal i (← pop)
  | .dup => do
    let v ← peek
    onHeap (retain v)
    MethodJit.push v
  | .swap => do
    let w ← pop
    let v ← pop
    MethodJit.push w
    MethodJit.push v
  | .sync | .syncLocals => pure ()

def Within (n : Nat) : Operation → Prop
  | .push s => s.Within n
  | .assign i s => s.Within n ∧ 0 ≤ i ∧ i.toNatClampNeg < n
  | .store i => 0 ≤ i ∧ i.toNatClampNeg < n
  | _ => True

end Operation

/-! ## Emitted -/

def Source.emit : Source → Emit Entry
  | .int n => do pure (.int (← Emit.const n))
  | .supply name r => do pure (.object (← Emit.callHelper (.ofRoutine name (.supply r)) [paramFrame]))
  | .constant name c i => do
    let n ← Emit.const i
    pure (.object (← Emit.callHelper (.ofRoutine name (.constant c)) [paramFrame, n]))
  | .copy i => Emit.getLocal i.toInt

def Operation.emit : Operation → Emit Unit
  | .push s => do Emit.push (← s.emit)
  | .assign i s => do Emit.setLocal i.toInt (← Emit.box (← s.emit))
  | .discard => do Emit.release (← Emit.pop)
  | .store i => do Emit.setLocal i.toInt (← Emit.box (← Emit.pop))
  | .dup => do
    let x ← Emit.peek
    Emit.retain x
    Emit.push x
  | .swap => do
    let y ← Emit.pop
    let x ← Emit.pop
    Emit.push y
    Emit.push x
  | .sync => Emit.sync
  | .syncLocals => Emit.syncLocals

def Source.lane (mode : Mode) : Source → LaneM Item
  | .int n => Lane.makeInt mode n
  | .supply _ r => Item.object <$> Lane.supply r
  | .constant _ c i => Item.object <$> Lane.constant c i
  | .copy i => Item.object <$> Lane.share i.toNatClampNeg

def Operation.lane (mode : Mode) (how : Storing) : Operation → LaneM Unit
  | .push s => do Lane.push mode (← s.lane mode)
  | .assign i s => do Lane.setLocal how i.toNatClampNeg (← Lane.onHeap (← s.lane mode).box)
  | .discard => do Lane.onHeap (← Lane.pop).release
  | .store i => do Lane.setLocal how i.toNatClampNeg (← Lane.onHeap (← Lane.pop).box)
  | .dup => do Lane.push mode (← Lane.shareTop)
  | .swap => do
    let y ← Lane.pop
    let x ← Lane.pop
    Lane.push mode y
    Lane.push mode x
  | .sync => Lane.sync
  | .syncLocals => Lane.syncLocals

/-- Operations one after the other, each with its way of setting a local. -/
def lanes (mode : Mode) (L : List (Operation × Storing)) : LaneM Unit :=
  L.forM fun p => p.1.lane mode p.2

section Twins

variable {K : Origin} {st : Setting} {borrow : List Link} {t : Prop} {mode mode' : Mode}

theorem twin_object {f g : LaneM Value} (hfg : Twin (laneBridge K st) borrow 0 t f g Gives) :
    Twin (laneBridge K st) borrow 0 t (Item.object <$> f) (Item.object <$> g) GivesItem :=
  hfg.map fun _ _ _ hP => ⟨hP, nofun⟩

theorem Source.twin (hmode : mode' = .eager → mode = .eager) (hg : Link.pair st.global st.global ∈ borrow)
    (s : Source) : Twin (laneBridge K st) borrow 0 t (s.lane mode) (s.lane mode') GivesItem := by
  cases s with
  | int n => exact Lane.twin_makeInt hmode n
  | supply name r => exact twin_object (Lane.twin_supply r hg)
  | constant name c i => exact twin_object (Lane.twin_constant c i)
  | copy i => exact twin_object (Lane.twin_share _)

/-- A value is made an object and put into a local. -/
theorem twin_boxLocal {x y : LaneM Item} (h : Twin (laneBridge K st) borrow 0 t x y GivesItem) (i : Nat)
    (how how' : Storing) :
    Twin (laneBridge K st) borrow 0 t (do Lane.setLocal how i (← Lane.onHeap (← x).box))
      (do Lane.setLocal how' i (← Lane.onHeap (← y).box)) Done := by
  refine h.bind fun a b P hP => ?_
  rw [hP.1]
  refine Twin.bind (twin_onHeap twin_boxItem) fun v w P hP => ?_
  rw [Gives] at hP
  rw [hP]
  exact Lane.twin_setLocal how how' i

theorem Operation.twin (hmode : mode' = .eager → mode = .eager)
    (hg : Link.pair st.global st.global ∈ borrow) (how how' : Storing) (op : Operation) :
    Twin (laneBridge K st) borrow 0 t (op.lane mode how) (op.lane mode' how') Done := by
  cases op with
  | push s =>
    refine (s.twin hmode hg).bind fun x y P hP => ?_
    rw [hP.1]
    exact Lane.twin_push hmode hP.2
  | assign i s => exact twin_boxLocal (s.twin hmode hg) _ how how'
  | discard =>
    refine Lane.twin_pop.bind fun x y P hP => ?_
    rw [hP.1]
    exact twin_onHeap twin_releaseItem
  | store i => exact twin_boxLocal Lane.twin_pop _ how how'
  | dup =>
    refine Lane.twin_shareTop.bind fun x y P hP => ?_
    rw [hP.1]
    exact Lane.twin_push hmode hP.2
  | swap =>
    refine Lane.twin_pop.bind fun x y P hP => ?_
    rw [hP.1, ← zero_add {Link.both x y}]
    refine Twin.bind_rest Lane.twin_pop fun x' y' P' hP' => ?_
    rw [hP'.1, add_comm]
    refine Twin.bind_rest (Lane.twin_push hmode hP.2) fun _ _ Q hQ => ?_
    rw [Done] at hQ
    rw [hQ, zero_add]
    exact Lane.twin_push hmode hP'.2
  | sync => exact Lane.twin_sync
  | syncLocals => exact Lane.twin_syncLocals

end Twins

/-! ### Nothing is written to objects -/

section Range

variable {m : Method} {mc : Machine σ}

end Range

/-! ## Operations follow lanes -/

section Following

variable {n : Nat}

theorem Source.follows {s : Source} (hs : s.Within n) :
    Follows (s.perform : Act σ Value) (s.lane .eager) fun v y => y = .object v := by
  cases s with
  | int k => exact follows_makeInt k
  | supply name r => exact (follows_supply r).object
  | constant name c i => exact (follows_constant c i).object
  | copy i =>
    obtain ⟨heq, hlt⟩ := Int32.toInt64_eq_ofNat hs.1
    have hperform : (Source.copy i).perform = (do
        let v ← readLocal (.ofNat i.toNatClampNeg)
        onHeap (retain v)
        pure v : Act σ Value) := by rw [perform, heq]
    rw [hperform]
    exact (follows_share (by omega)).object

theorem putLocal_eq {i : Int32} (hi : 0 ≤ i) (v : Value) :
    (putLocal i v : Act σ Unit) = Interpreter.setLocal i.toNatClampNeg v := by
  rw [putLocal, (Int32.toInt64_eq_ofNat hi).1]
  rfl

theorem Operation.follows {op : Operation} (hop : op.Within n) :
    Follows (op.perform : Act σ Unit) (op.lane .eager .now) Eq := by
  cases op with
  | push s =>
    refine (Source.follows hop).bind fun v y hy => ?_
    subst hy
    exact follows_push v
  | assign i s =>
    have hlt := (Int32.toInt64_eq_ofNat hop.2.1).2
    simp only [perform, putLocal_eq hop.2.1]
    exact follows_boxLocal (Source.follows hop.1) (by omega)
  | discard =>
    refine follows_pop.bind fun v y hy => ?_
    subst hy
    exact follows_onHeap (release v)
  | store i =>
    have hlt := (Int32.toInt64_eq_ofNat hop.1).2
    simp only [perform, putLocal_eq hop.1]
    exact follows_boxLocal follows_pop (by omega)
  | dup =>
    have hdup : (Operation.dup.perform : Act σ Unit) = (do
        let v ← peek
        onHeap (retain v)
        pure v) >>= MethodJit.push := by simp only [perform, bind_assoc, pure_bind]
    rw [hdup]
    refine follows_peek.bind fun v y hy => ?_
    subst hy
    exact follows_push v
  | swap =>
    refine follows_pop.bind fun w y hy => follows_pop.bind fun v x hx => ?_
    subst hy hx
    exact (follows_push w).bind fun _ _ _ => follows_push v
  | sync => exact fun mc V hf => ⟨rfl, (), V, hf, sync_lane hf.length_le mc.heap, rfl⟩
  | syncLocals => exact fun mc V hf => ⟨rfl, (), V, hf, syncLocals_lane V mc.heap, rfl⟩

end Following

/-! ## Emitting operations -/

section Emitting

variable {e e' : Emitter} {E : Fault → Emitter → Prop}

theorem toInt_eq_toNatClampNeg {i : Int32} (hi : 0 ≤ i) : i.toInt = (i.toNatClampNeg : Int) := by
  have h0 : 0 ≤ i.toInt := Int32.le_iff_toInt_le.1 hi
  rw [Int32.toNatClampNeg]
  omega

end Emitting

/-! ## Emitted operations follow lanes -/

section Realizing

variable {host : Host σ} {c : Prop} {e : Emitter} {regs : IR.Registers}

instance (s : Source) : Forward s.emit := by
  cases s <;> unfold Source.emit <;> infer_instance

instance (op : Operation) : Forward op.emit := by
  cases op <;> unfold Operation.emit <;> infer_instance

instance (ops : List Operation) : Forward (ops.forM Operation.emit) := by
  induction ops with
  | nil => exact inferInstanceAs (Forward (Pure.pure ()))
  | cons op ops ih =>
    have : Forward (do op.emit; ops.forM Operation.emit) := inferInstance
    exact this

theorem Source.realizes {s : Source} (hs : s.Within e.locals.size) :
    Realizes host c e regs s.emit (s.lane .lazy) fun x y e' regs' => x.Means e' regs' y := by
  refine .of_primed fun hp => ?_
  cases s with
  | int n => exact (realizes_makeInt hp n).imp fun _ _ _ _ _ _ h => h.2
  | supply name r => exact (realizes_object (realizes_supply hp name r)).imp fun _ _ _ _ _ _ h => h.2
  | constant name k i =>
    have hlane : (Source.constant name k i).lane .lazy =
        (pure () : LaneM Unit) >>= fun _ => Item.object <$> Lane.constant k i := rfl
    rw [hlane]
    refine Realizes.bind (realizes_const hp i) fun v _ e₁ regs₁ ho hsame hv => ?_
    exact (realizes_object (realizes_constant (hp.onward ho hsame) name k hv.2)).imp fun _ _ _ _ _ _ h => h.2
  | copy i =>
    have hget : Realizes host c e regs (Emit.getLocal i.toNatClampNeg) (Lane.share i.toNatClampNeg) _ :=
      realizes_getLocal (Int32.toInt64_eq_ofNat hs.1).2
    rw [← toInt_eq_toNatClampNeg hs.1] at hget
    rw [lane, emit, map_eq_pure_bind, ← bind_pure (Emit.getLocal i.toInt)]
    exact Realizes.bind hget fun x v e₁ regs₁ _ _ hx => .pure hx.1

/-- How a local is set depends on what the emitter knows when it comes to that. -/
theorem exists_realizes_boxLocal {x : Emit Entry} {y : LaneM Item} [Forward x] {i : Int32} (hi : 0 ≤ i)
    (hx : ∀ regs, Realizes host c e regs x y fun z w e' regs' => z.Means e' regs' w) :
    ∃ how, ∀ regs, Realizes host c e regs (do Emit.setLocal i.toInt (← Emit.box (← x)))
      (do Lane.setLocal how i.toNatClampNeg (← Lane.onHeap (← y).box)) fun _ _ _ _ => True := by
  have hlt := (Int32.toInt64_eq_ofNat hi).2
  have hbox (regs : IR.Registers) : Realizes host c e regs (do Emit.box (← x)) (do Lane.onHeap (← y).box)
      fun z v e' regs' => z.Means e' regs' (.object v) ∧ (do Emit.box (← x)) e = .ok z e' := by
    refine Realizes.static (Realizes.bind (hx regs) fun z w e₁ regs₁ _ _ hz => ?_) fun _ _ h => h
    exact .of_primed fun hp => (realizes_box hp hz).imp fun _ _ _ _ _ _ h => h.2
  have hassoc {how : Storing} : (do Lane.setLocal how i.toNatClampNeg (← Lane.onHeap (← y).box)) =
      (do Lane.onHeap (← y).box) >>= Lane.setLocal how i.toNatClampNeg := by simp only [bind_assoc]
  have hassoc' : (do Emit.setLocal i.toInt (← Emit.box (← x))) =
      (do Emit.box (← x)) >>= Emit.setLocal i.toInt := by simp only [bind_assoc]
  rw [hassoc', toInt_eq_toNatClampNeg hi]
  cases hrun : (do Emit.box (← x)) e with
  | error ε e' =>
    refine ⟨.later, fun regs m V ℓ _ a e₁ hok => ?_⟩
    rw [bind_of_error hrun] at hok
    cases hok
  | ok z e₁ =>
    refine ⟨e₁.storing i.toNatClampNeg z, fun regs => ?_⟩
    rw [hassoc]
    refine Realizes.bind (hbox regs) fun z' v e' regs' _ _ ⟨hz, hsame⟩ => ?_
    rw [hrun] at hsame
    cases hsame
    exact (realizes_setLocal hlt hz).imp fun _ _ _ _ _ _ _ => trivial

theorem Operation.exists_realizes {op : Operation} (hop : op.Within e.locals.size) :
    ∃ how, ∀ regs, Realizes host c e regs op.emit (op.lane .lazy how) fun _ _ _ _ => True := by
  cases op with
  | push s =>
    refine ⟨.later, fun regs => Realizes.bind (Source.realizes hop) fun x y e₁ regs₁ _ _ hx => ?_⟩
    exact (realizes_push hx).imp fun _ _ _ _ _ _ _ => trivial
  | assign i s => exact exists_realizes_boxLocal hop.2.1 fun regs => Source.realizes hop.1
  | discard =>
    refine ⟨.later, fun regs => Realizes.bind realizes_pop fun x y e₁ regs₁ _ _ hx => ?_⟩
    exact (realizes_release hx.1).imp fun _ _ _ _ _ _ _ => trivial
  | store i =>
    exact exists_realizes_boxLocal hop.1 fun regs => realizes_pop.imp fun _ _ _ _ _ _ h => h.1
  | dup =>
    have hdup : Operation.dup.emit = (do
        let x ← Emit.peek
        Emit.retain x
        pure x) >>= Emit.push := by simp only [emit, bind_assoc, pure_bind]
    refine ⟨.later, fun regs => ?_⟩
    rw [hdup]
    refine Realizes.bind realizes_peek fun x y e₁ regs₁ _ _ hx => ?_
    exact (realizes_push hx.1).imp fun _ _ _ _ _ _ _ => trivial
  | swap =>
    refine ⟨.later, fun regs => Realizes.bind realizes_pop fun b y e₁ regs₁ _ _ hb => ?_⟩
    refine Realizes.bind realizes_pop fun a x e₂ regs₂ ho₂ hs₂ ha => ?_
    refine Realizes.bind (realizes_push (hb.1.kept ho₂ hs₂)) fun _ _ e₃ regs₃ ho₃ hs₃ _ => ?_
    exact (realizes_push (ha.1.kept ho₃ hs₃)).imp fun _ _ _ _ _ _ _ => trivial
  | sync => exact ⟨.later, fun regs => realizes_sync.imp fun _ _ _ _ _ _ _ => trivial⟩
  | syncLocals => exact ⟨.later, fun regs => realizes_syncLocals.imp fun _ _ _ _ _ _ _ => trivial⟩

end Realizing

/-! ## Storing twice -/

section Twice

variable {e e' : Emitter} {α : Type}

end Twice

/-! ## Running a block -/

section Running

variable {m : Method} {e₀ e : Emitter}

variable {host : Host σ} {mc mc' : Machine σ} {V : View}

theorem initialRegisters_at {p : Program} (hp : 4 ≤ p.registers) (f : Frame) :
    (p.initialRegisters f).at paramLocals = .area f.locals ∧
      (p.initialRegisters f).at paramStack = .area f.stack ∧ (p.initialRegisters f).at paramFrame = .context := by
  have h₁ : 1 < p.registers := by omega
  have h₂ : 2 < p.registers := by omega
  have h₃ : 3 < p.registers := by omega
  simp [Program.initialRegisters, Registers.at, paramLocals, paramStack, paramFrame,
    h₁, h₂, h₃]

/-- A block in which nothing is pending and nothing is known. -/
theorem fits_entered (hmake : Emitter.make? m = some e₀) (hf : mc.frame.Shows V)
    (hs : Interpreter.Steady m mc.frame) {p : Program} (hp : 4 ≤ p.registers) :
    Fits e₀.entered (p.initialRegisters mc.frame) mc V (V.lane mc.heap) := by
  have hsize : V.locals.length = m.locals.toNatClampNeg := by
    have hcount := hs.2
    rw [Frame.localSlots, hf.locals, Frame.slots, ← Array.length_toList, hf.slots] at hcount
    rw [Int64.toNatClampNeg]
    omega
  have hlocals : e₀.entered.locals = .replicate m.locals.toNatClampNeg {} := by
    rw [make?_eq_some hmake]
    rfl
  have hslot (i : Nat) (s : Slot) (h : e₀.entered.locals[i]? = some s) : s = {} := by
    rw [hlocals] at h
    exact (Array.mem_replicate.1 (Array.mem_of_getElem? h)).2
  refine { primed := ⟨?_, ?_, ?_, ?_⟩, frame := hf, heap := rfl, setting := rfl, scope := rfl,
           operands := ⟨[], ?_, rfl⟩, size := ?_, length := by simp [View.lane],
           slots := fun i s p l hs hp hl => ?_, near := fun i s h hne => absurd (hslot i s h) hne }
  · rw [make?_eq_some hmake]
    exact le_rfl
  · rw [(initialRegisters_at hp _).1, hf.locals]
  · rw [(initialRegisters_at hp _).2.1, hf.stack]
  · exact (initialRegisters_at hp _).2.2
  · rw [make?_eq_some hmake]
    exact .nil
  · rw [hlocals, Array.size_replicate, hsize]
  · obtain rfl := hslot i s hs
    rw [View.locals_lane, hp, Option.map_some, Option.some.injEq] at hl
    exact ⟨Bool.noConfusion, fun _ => hl.symm, fun _ hn => Bool.noConfusion hn⟩

end Running

/-! ## The main result -/

section Main

variable {K : Origin} {mc mc₁ : Machine σ} {V V₁ : View} {owned : Multiset Value} {m : Method} {e₀ : Emitter}

end Main

end MethodJit.Compiler
