import MethodJit.Proofs.Deferral
import MethodJit.Proofs.Items
import MethodJit.Proofs.Steps

/-!
# Instructions that only move values

A `Move` is what an instruction does that takes values from the operands and the locals and puts others
there. The interpreter performs it on the frame; compiled code performs it on what is pending, also with
numbers of which no object has been made. Both carry out the same action on lanes, at once or later. Before
a routine that may throw, everything is stored.
-/

namespace MethodJit

open Compiler

inductive Move
  | idle
  | operation (op : Operation)
  /-- Replaces a local by what a routine makes of it. -/
  | step (i : Int32) (r : Unary)
  | unary (name : String) (r : Unary)
  | binary (name : String) (r : Binary)

namespace Move

/-- Whether the move can throw. -/
def throws : Move → Bool
  | .unary _ r => (Action.unary r).throws
  | .binary _ r => (Action.binary r).throws
  | _ => false

/-- The locals are among the first `n`, and steps of locals throw nothing. -/
def Within (n : Nat) : Move → Prop
  | .operation op => op.Within n
  | .step i r => (0 ≤ i ∧ i.toNatClampNeg < n) ∧ r ≠ .convertO
  | _ => True

variable {σ : Type}

/-- Performs the move on the frame. -/
def perform : Move → Act σ Unit
  | .idle => pure ()
  | .operation .dup => do
    let x ← pop
    onHeap (retain x)
    push x
    push x
  | .operation op => op.perform
  | .step i r => do
    let x ← readLocal i.toInt64
    onHeap (retain x)
    putLocal i (← onHeap (r.run x))
  | .unary _ r => do push (← onHeap (r.run (← pop)))
  | .binary _ r => do
    let b ← pop
    let a ← pop
    push (← onHeap (r.run a b))

def emit : Move → Emit Unit
  | .idle => pure ()
  | .operation op => op.emit
  | .step i r => do
    let x ← Emit.getLocal i.toInt
    Emit.setLocal i.toInt (.object (← Emit.callHelper (Emit.helperOf r.opcode (.unary r)) [x.value]))
  | .unary name r => do
    if (Action.unary r).throws then Emit.syncAll
    Emit.unary (.ofRoutine name (.unary r)) r
  | .binary name r => do
    if (Action.binary r).throws then Emit.syncAll
    Emit.binary (.ofRoutine name (.binary r)) r

end Move

/-- Stores everything. -/
def Lane.syncAll : LaneM Unit := do
  Lane.sync
  Lane.syncLocals

def Move.lane (mode : Mode) (how : Storing) : Move → LaneM Unit
  | .idle => pure ()
  | .operation op => op.lane mode how
  | .step i r => do
    let v ← Lane.share i.toNatClampNeg
    Lane.setLocal how i.toNatClampNeg (← Lane.onHeap (r.run v))
  | .unary _ r => do
    if (Action.unary r).throws then Lane.syncAll
    let x ← Lane.pop
    Lane.push mode (← Lane.onHeap (r.onItem x))
  | .binary _ r => do
    if (Action.binary r).throws then Lane.syncAll
    let b ← Lane.pop
    let a ← Lane.pop
    Lane.push mode (← Lane.onHeap (r.onItems a b))

theorem throws_unary {r : Unary} : (Action.unary r).throws = true ↔ r = .convertO := by
  cases r <;> simp [Action.throws]

theorem throws_binary {r : Binary} : (Action.binary r).throws = true ↔ r = .instanceOf := by
  cases r <;> simp [Action.throws]

/-! ## On two lanes -/

section Twins

variable {K : Origin} {s : Setting} {borrow : List Link} {t : Prop} {mode mode' : Mode}

theorem Lane.twin_syncAll : Twin (laneBridge K s) borrow 0 t syncAll syncAll Done := by
  refine Lane.twin_sync.bind fun _ _ P hP => ?_
  rw [hP]
  exact Lane.twin_syncLocals

theorem Lane.twin_syncIf (c : Bool) {α β : Type} {x : LaneM α} {y : LaneM β} {R : α → β → Multiset Link → Prop}
    (h : Twin (laneBridge K s) borrow 0 t x y R) :
    Twin (laneBridge K s) borrow 0 t
      (do
        if c then syncAll
        x)
      (do
        if c then syncAll
        y) R := by
  cases c with
  | true =>
    refine Lane.twin_syncAll.bind fun _ _ P hP => ?_
    rw [hP]
    exact h
  | false => exact h

/-- The same move on two lanes. -/
theorem Move.twin (hmode : mode' = .eager → mode = .eager) (hg : Link.pair s.global s.global ∈ borrow)
    (how how' : Storing) {n : Nat} {mv : Move} (hmv : mv.Within n) :
    Twin (laneBridge K s) borrow 0 (mv.throws = true) (mv.lane mode how) (mv.lane mode' how') Done := by
  cases mv with
  | idle => exact .pure rfl
  | operation op => exact op.twin hmode hg how how'
  | step i r =>
    refine (Lane.twin_share _).bind fun v w P hP => ?_
    rw [hP]
    refine Twin.bind ((twin_onHeap (twin_unary r)).mono (fun _ hl => hl) (fun h => absurd h hmv.2)
      fun _ _ _ h => h) fun v' w' P hP => ?_
    rw [hP]
    exact Lane.twin_setLocal how how' _
  | unary name r =>
    refine Lane.twin_syncIf _ (Lane.twin_pop.bind fun x y P hP => ?_)
    rw [hP.1]
    refine Twin.bind ((twin_onHeap (r.twin_onItem hP.2)).mono (fun _ hl => hl) throws_unary.2
      fun _ _ _ h => h) fun x' y' P hP => ?_
    rw [hP.1]
    exact Lane.twin_push hmode hP.2
  | binary name r =>
    refine Lane.twin_syncIf _ (Lane.twin_pop.bind fun x y P hP => ?_)
    rw [hP.1, ← zero_add {Link.both x y}]
    refine Twin.bind_rest Lane.twin_pop fun x' y' P' hP' => ?_
    rw [hP'.1]
    refine Twin.bind ((twin_onHeap (r.twin_onItems hP'.2 hP.2)).mono (fun _ hl => hl) throws_binary.2
      fun _ _ _ h => h) fun x' y' P hP => ?_
    rw [hP.1]
    exact Lane.twin_push hmode hP.2

end Twins

/-! ## On frames -/

section Following

variable {σ : Type}

theorem follows_syncAll : Follows (pure () : Act σ Unit) Lane.syncAll Eq := fun mc V hf => by
  refine ⟨rfl, (), V, hf, ?_, rfl⟩
  rw [Lane.syncAll, bind_of_ok (sync_lane hf.length_le mc.heap)]
  exact syncLocals_lane V mc.heap

theorem Follows.syncIf (c : Bool) {α β : Type} {x : Act σ α} {y : LaneM β} {R : α → β → Prop}
    (h : Follows x y R) :
    Follows x (do
      if c then Lane.syncAll
      y) R := by
  cases c with
  | true =>
    have hsync : Follows (pure () >>= fun _ => x) (Lane.syncAll >>= fun _ => y) R :=
      follows_syncAll.bind fun _ _ _ => h
    exact hsync
  | false => exact h

theorem Lane.onHeap_map {α β : Type} (f : α → β) (x : HeapM α) :
    Lane.onHeap (f <$> x) = f <$> Lane.onHeap x := by
  funext ℓ
  simp only [Lane.onHeap, Lane.reading, Functor.map, EStateM.map]
  cases x ℓ.heap <;> rfl

theorem follows_object {x : HeapM Value} :
    Follows (onHeap x : Act σ Value) (Lane.onHeap (Item.object <$> x)) fun v y => y = .object v := by
  rw [Lane.onHeap_map]
  exact (follows_onHeap x).object

theorem Binary.onItems_objects (r : Binary) (v w : Value) :
    r.onItems (.object v) (.object w) = Item.object <$> r.run v w := by cases r <;> rfl

theorem Move.follows {n : Nat} {mv : Move} (hmv : mv.Within n) :
    Follows (mv.perform : Act σ Unit) (mv.lane .eager .now) Eq := by
  cases mv with
  | idle => exact .pure rfl
  | operation op =>
    by_cases hdup : op = .dup
    · subst hdup
      exact follows_dup
    · have heq : (Move.operation op).perform = (op.perform : Act σ Unit) := by
        cases op <;> first | rfl | exact absurd rfl hdup
      rw [heq]
      exact op.follows hmv
  | step i r =>
    obtain ⟨heq, hlt⟩ := Int32.toInt64_eq_ofNat hmv.1.1
    have hstep : (Move.step i r).perform = ((do
        let v ← readLocal (.ofNat i.toNatClampNeg)
        onHeap (retain v)
        pure v) >>= fun x => onHeap (r.run x) >>= Interpreter.setLocal i.toNatClampNeg : Act σ Unit) := by
      simp only [perform, bind_assoc, pure_bind, heq, putLocal_eq hmv.1.1]
    rw [hstep]
    refine (follows_share (by omega)).bind fun v w hv => ?_
    subst hv
    refine (follows_onHeap (r.run v)).bind fun w w' hw => ?_
    subst hw
    exact follows_setLocal (by omega) w
  | unary name r =>
    refine Follows.syncIf _ (follows_pop.bind fun v y hy => ?_)
    subst hy
    refine follows_object.bind fun w y hy => ?_
    subst hy
    exact follows_push w
  | binary name r =>
    refine Follows.syncIf _ (follows_pop.bind fun b y hy => follows_pop.bind fun a x hx => ?_)
    subst hy hx
    rw [r.onItems_objects]
    refine follows_object.bind fun w y hy => ?_
    subst hy
    exact follows_push w

end Following

/-! ## In compiled code -/

namespace Compiler

open IR

variable {σ : Type} {host : Host σ} {c : Prop} {e : Emitter} {regs : IR.Registers}

/-- The code of a routine on an entry. -/
def Emit.unaryEntry (h : Helper) (r : Unary) (x : Entry) : Emit Entry :=
  match x.kind, r with
  | .int, .convertI => pure x
  | .int, .incrementI => do
    let one ← Emit.const 1
    pure (.int (← Emit.build (.addInt x.value one)))
  | .int, .decrementI => do
    let one ← Emit.const (-1)
    pure (.int (← Emit.build (.addInt x.value one)))
  | _, _ => do
    let x ← Emit.box x
    pure (.object (← Emit.callHelper h [x.value]))

theorem unary_eq (h : Helper) (r : Unary) :
    Emit.unary h r = (do Emit.push (← Emit.unaryEntry h r (← Emit.pop))) := by
  unfold Emit.unary
  congr 1
  funext x
  unfold Emit.unaryEntry
  cases x.kind <;> cases r <;> simp only [bind_assoc, pure_bind]

instance (h : Helper) (r : Unary) (x : Entry) : Forward (Emit.unaryEntry h r x) := by
  unfold Emit.unaryEntry
  split <;> infer_instance

/-- The sum of two registers that hold numbers. -/
theorem performs_sum (hp : Primed e regs) {u v : ValueId} {n k : Int32} (hu : (regs.at u).toInt32 = n)
    (hv : (regs.at v).toInt32 = k) :
    Performs host e regs (do pure (Entry.int (← Emit.build (.addInt u v))))
      (onHeap (pure (Item.int (n + k))) : Act σ Item) fun z y e' regs' => z.Means e' regs' y := by
  have hadd : Performs host e regs (Emit.build (.addInt u v))
      (pure ((regs.at u).toInt32 + (regs.at v).toInt32).toInt64 : Act σ Int64) (Holding .int) :=
    performs_addInt hp u v
  rw [hu, hv] at hadd
  have hsum : Performs host e regs (do pure (Entry.int (← Emit.build (.addInt u v))))
      (pure (n + k).toInt64 >>= fun _ => pure (Item.int (n + k))) fun z y e' regs' => z.Means e' regs' y :=
    Performs.bind hadd.of_pure fun _ _ _ _ _ _ h => Performs.pure (means_int_of_holding h.2)
  exact hsum

theorem performs_addConst (hp : Primed e regs) {x : Entry} {n : Int32} (hx : x.Means e regs (.int n)) (k : Int32) :
    Performs host e regs (do
      let one ← Emit.const k
      pure (Entry.int (← Emit.build (.addInt x.value one)))) (onHeap (pure (Item.int (n + k))) : Act σ Item)
      fun z y e' regs' => z.Means e' regs' y := by
  have hconst : Performs host e regs (do
      let one ← Emit.const k
      pure (Entry.int (← Emit.build (.addInt x.value one))))
      (pure k.toInt64 >>= fun _ => onHeap (pure (Item.int (n + k)))) fun z y e' regs' => z.Means e' regs' y := by
    refine Performs.bind (performs_const hp k).of_pure fun one _ e₁ regs₁ ho hs h => ?_
    refine performs_sum (hp.onward ho hs) (hx.kept ho hs).2.2 ?_
    rw [h.2.2]
    exact Int32.toInt32_toInt64 k
  exact hconst

/-- The result of code that acts on the heap, as an operand. -/
theorem performs_object {x : Emit ValueId} [Forward x] {y : HeapM Value}
    (h : Performs host e regs x (onHeap y : Act σ Value) (Holding .value)) :
    Performs host e regs (do pure (Entry.object (← x))) (onHeap (Item.object <$> y) : Act σ Item)
      fun z y e' regs' => z.Means e' regs' y := by
  rw [map_eq_pure_bind, onHeap_bind]
  exact Performs.bind h fun _ _ _ _ _ _ h => Performs.pure (means_object_of_holding h)

/-- A number that code gives, as an operand. -/
theorem performs_int {x : Emit ValueId} [Forward x] {y : HeapM Int32}
    (h : Performs host e regs x (onHeap y : Act σ Int32) (Holding fun n => .int n.toInt64)) :
    Performs host e regs (do pure (Entry.int (← x))) (onHeap (Item.int <$> y) : Act σ Item)
      fun z y e' regs' => z.Means e' regs' y := by
  rw [map_eq_pure_bind, onHeap_bind]
  exact Performs.bind h fun _ _ _ _ _ _ h => Performs.pure (means_int_of_holding h)

/-- The call of a routine on one object. -/
theorem performs_unaryCall (hp : Primed e regs) (name : String) (r : Unary) {x : Entry} {v : Value}
    (hx : x.Means e regs (.object v)) :
    Performs host e regs (Emit.callHelper (.ofRoutine name (.unary r)) [x.value]) (onHeap (r.run v) : Act σ Value)
      (Holding .value) := by
  rw [← hx.2.2]
  exact performs_call hp name (r := .unary r) rfl rfl nofun

/-- An object is made of an entry, and a routine applied to it. -/
theorem performs_boxed (hp : Primed e regs) (name : String) (r : Unary) {x : Entry} {y : Item}
    (hx : x.Means e regs y) :
    Performs host e regs (do
      let x ← Emit.box x
      pure (Entry.object (← Emit.callHelper (.ofRoutine name (.unary r)) [x.value])))
      (onHeap (do Item.object <$> r.run (← y.box)) : Act σ Item) fun z y e' regs' => z.Means e' regs' y := by
  rw [onHeap_bind]
  refine Performs.bind (performs_box hp hx) fun z v e₁ regs₁ ho hs hz => ?_
  exact performs_object (performs_unaryCall (hp.onward ho hs) name r hz)

theorem performs_unaryEntry (hp : Primed e regs) (name : String) (r : Unary) {x : Entry} {y : Item}
    (hx : x.Means e regs y) :
    Performs host e regs (Emit.unaryEntry (.ofRoutine name (.unary r)) r x) (onHeap (r.onItem y) : Act σ Item)
      fun z y e' regs' => z.Means e' regs' y := by
  cases y with
  | object v =>
    have heq : Emit.unaryEntry (.ofRoutine name (.unary r)) r x = (do
        let x ← Emit.box x
        pure (.object (← Emit.callHelper (.ofRoutine name (.unary r)) [x.value]))) := by
      unfold Emit.unaryEntry
      rw [hx.1]
    rw [heq]
    exact performs_boxed hp name r hx
  | int n =>
    unfold Emit.unaryEntry
    rw [hx.1]
    cases r with
    | convertI => exact Performs.pure hx
    | incrementI => exact performs_addConst hp hx 1
    | decrementI => exact performs_addConst hp hx (-1)
    | _ => exact performs_boxed hp name _ hx

/-- The code of a routine on two entries, of which objects are made. -/
def Emit.boxedEntry (h : Helper) (a b : Entry) : Emit Entry := do
  let a ← Emit.box a
  let b ← Emit.box b
  pure (.object (← Emit.callHelper h [a.value, b.value]))

def Emit.bitAndEntry (h : Helper) (a b : Entry) : Emit Entry :=
  match a.kind, b.kind with
  | .int, .int => do pure (.int (← Emit.callHelper Registry.bitAndInts [a.value, b.value]))
  | .int, _ => do pure (.int (← Emit.callHelper Registry.bitAndMixed [b.value, a.value]))
  | _, .int => do pure (.int (← Emit.callHelper Registry.bitAndMixed [a.value, b.value]))
  | _, _ => do pure (.object (← Emit.callHelper h [a.value, b.value]))

def Emit.shiftEntry (h : Helper) (s : Shift) (a b : Entry) : Emit Entry :=
  match a.kind with
  | .int => do
    let b ← Emit.box b
    pure (.object (← Emit.callHelper (Registry.shift s) [a.value, b.value]))
  | _ => Emit.boxedEntry h a b

def Emit.addEntry (h : Helper) (a b : Entry) : Emit Entry :=
  match a.kind, b.kind with
  | .int, .int => do pure (.int (← Emit.build (.addInt a.value b.value)))
  | _, _ => Emit.boxedEntry h a b

/-- The code of a routine on two entries. -/
def Emit.binaryEntry (h : Helper) (r : Binary) (a b : Entry) : Emit Entry :=
  match r with
  | .bitAnd => Emit.bitAndEntry h a b
  | .lShift => Emit.shiftEntry h .left a b
  | .rShift => Emit.shiftEntry h .right a b
  | .uRShift => Emit.shiftEntry h .unsignedRight a b
  | .addI => Emit.addEntry h a b
  | _ => Emit.boxedEntry h a b

theorem binaryBoxed_eq (h : Helper) (a b : Entry) : Emit.binaryBoxed h a b = Emit.boxedEntry h a b >>= Emit.push := by
  simp only [Emit.binaryBoxed, Emit.boxedEntry, bind_assoc, pure_bind]

theorem bitAnd_eq (h : Helper) (a b : Entry) : Emit.bitAnd h a b = Emit.bitAndEntry h a b >>= Emit.push := by
  unfold Emit.bitAnd Emit.bitAndEntry
  cases a.kind <;> cases b.kind <;> simp only [bind_assoc, pure_bind]

theorem shift_eq (h : Helper) (s : Shift) (a b : Entry) :
    Emit.shift h s a b = Emit.shiftEntry h s a b >>= Emit.push := by
  unfold Emit.shift Emit.shiftEntry
  cases a.kind <;> simp only [bind_assoc, pure_bind, binaryBoxed_eq]

theorem binary_eq (h : Helper) (r : Binary) :
    Emit.binary h r = (do
      let b ← Emit.pop
      let a ← Emit.pop
      Emit.push (← Emit.binaryEntry h r a b)) := by
  unfold Emit.binary
  congr 1
  funext b
  congr 1
  funext a
  cases r with
  | bitAnd => exact bitAnd_eq h a b
  | lShift | rShift | uRShift => exact shift_eq h _ a b
  | addI =>
    unfold Emit.binaryEntry Emit.addEntry
    cases a.kind <;> cases b.kind <;> simp only [bind_assoc, pure_bind, binaryBoxed_eq]
  | _ => exact binaryBoxed_eq h a b

instance (h : Helper) (a b : Entry) : Forward (Emit.boxedEntry h a b) := by
  unfold Emit.boxedEntry
  infer_instance

instance (h : Helper) (r : Binary) (a b : Entry) : Forward (Emit.binaryEntry h r a b) := by
  unfold Emit.binaryEntry Emit.bitAndEntry Emit.shiftEntry Emit.addEntry
  repeat' split
  all_goals infer_instance

theorem performs_binaryCall (hp : Primed e regs) (name : String) (r : Binary) {a b : Entry} {v w : Value}
    (ha : a.Means e regs (.object v)) (hb : b.Means e regs (.object w)) :
    Performs host e regs (Emit.callHelper (.ofRoutine name (.binary r)) [a.value, b.value])
      (onHeap (r.run v w) : Act σ Value) (Holding .value) := by
  rw [← ha.2.2, ← hb.2.2]
  exact performs_call hp name (r := .binary r) rfl rfl nofun

theorem performs_boxedEntry (hp : Primed e regs) (name : String) (r : Binary) {a b : Entry} {x y : Item}
    (ha : a.Means e regs x) (hb : b.Means e regs y) :
    Performs host e regs (Emit.boxedEntry (.ofRoutine name (.binary r)) a b) (onHeap (r.onBoxed x y) : Act σ Item)
      fun z y e' regs' => z.Means e' regs' y := by
  rw [Binary.onBoxed, onHeap_bind]
  refine Performs.bind (performs_box hp ha) fun a' v e₁ regs₁ ho hs ha' => ?_
  have hp₁ := hp.onward ho hs
  rw [onHeap_bind]
  refine Performs.bind (performs_box hp₁ (hb.kept ho hs)) fun b' w e₂ regs₂ ho₂ hs₂ hb' => ?_
  exact performs_object (performs_binaryCall (hp₁.onward ho₂ hs₂) name r (ha'.kept ho₂ hs₂) hb')

/-- The common bits of a word and an object. -/
theorem performs_bitAndMixed (hp : Primed e regs) {a b : Entry} {w : Value} {n : Int32}
    (ha : a.Means e regs (.object w)) (hb : b.Means e regs (.int n)) :
    Performs host e regs (do pure (Entry.int (← Emit.callHelper Registry.bitAndMixed [a.value, b.value])))
      (onHeap (Item.int <$> bitAndWord w n) : Act σ Item) fun z y e' regs' => z.Means e' regs' y := by
  rw [← ha.2.2, ← hb.2.2]
  exact performs_int (performs_call hp _ (r := .bitAndMixed) rfl rfl nofun)

theorem performs_bitAndEntry (hp : Primed e regs) (name : String) {a b : Entry} {x y : Item}
    (ha : a.Means e regs x) (hb : b.Means e regs y) :
    Performs host e regs (Emit.bitAndEntry (.ofRoutine name (.binary .bitAnd)) a b)
      (onHeap (bitAndItems x y) : Act σ Item) fun z y e' regs' => z.Means e' regs' y := by
  unfold Emit.bitAndEntry
  cases x with
  | object v =>
    cases y with
    | object w =>
      rw [ha.1, hb.1]
      exact performs_object (performs_binaryCall hp name .bitAnd ha hb)
    | int m =>
      rw [ha.1, hb.1]
      exact performs_bitAndMixed hp ha hb
  | int n =>
    cases y with
    | object w =>
      rw [ha.1, hb.1]
      exact performs_bitAndMixed hp hb ha
    | int m =>
      rw [ha.1, hb.1]
      have hcall : Performs host e regs (Emit.callHelper Registry.bitAndInts [a.value, b.value])
          (onHeap (pure ((regs.at a.value).toInt32 &&& (regs.at b.value).toInt32)) : Act σ Int32)
          (Holding fun n => .int n.toInt64) :=
        performs_call hp _ (r := .bitAndInts) rfl rfl nofun
      rw [ha.2.2, hb.2.2] at hcall
      exact performs_int hcall

theorem performs_shiftEntry (hp : Primed e regs) (name : String) (r : Binary) (s : Shift) {a b : Entry} {x y : Item}
    (ha : a.Means e regs x) (hb : b.Means e regs y) :
    Performs host e regs (Emit.shiftEntry (.ofRoutine name (.binary r)) s a b)
      (onHeap (s.onItems r x y) : Act σ Item) fun z y e' regs' => z.Means e' regs' y := by
  unfold Emit.shiftEntry
  cases x with
  | object v =>
    rw [ha.1]
    exact performs_boxedEntry hp name r ha hb
  | int n =>
    rw [ha.1, Shift.onItems, onHeap_bind]
    refine Performs.bind (performs_box hp hb) fun b' w e₁ regs₁ ho hs hb' => ?_
    have hword := (ha.kept ho hs).2.2
    refine performs_object ?_
    rw [← hb'.2.2, ← hword]
    cases s with
    | left => exact performs_call (hp.onward ho hs) _ (r := .shift .left) rfl rfl nofun
    | right => exact performs_call (hp.onward ho hs) _ (r := .shift .right) rfl rfl nofun
    | unsignedRight => exact performs_call (hp.onward ho hs) _ (r := .shift .unsignedRight) rfl rfl nofun

theorem performs_addEntry (hp : Primed e regs) (name : String) {a b : Entry} {x y : Item}
    (ha : a.Means e regs x) (hb : b.Means e regs y) :
    Performs host e regs (Emit.addEntry (.ofRoutine name (.binary .addI)) a b) (onHeap (addItems x y) : Act σ Item)
      fun z y e' regs' => z.Means e' regs' y := by
  have hboxed : Performs host e regs (Emit.boxedEntry (.ofRoutine name (.binary .addI)) a b)
      (onHeap (Binary.addI.onBoxed x y) : Act σ Item) fun z y e' regs' => z.Means e' regs' y :=
    performs_boxedEntry hp name .addI ha hb
  unfold Emit.addEntry
  cases x with
  | object v =>
    rw [ha.1]
    exact hboxed
  | int n =>
    cases y with
    | object w =>
      rw [ha.1, hb.1]
      exact hboxed
    | int m =>
      rw [ha.1, hb.1]
      exact performs_sum hp ha.2.2 hb.2.2

theorem performs_binaryEntry (hp : Primed e regs) (name : String) (r : Binary) {a b : Entry} {x y : Item}
    (ha : a.Means e regs x) (hb : b.Means e regs y) :
    Performs host e regs (Emit.binaryEntry (.ofRoutine name (.binary r)) r a b) (onHeap (r.onItems x y) : Act σ Item)
      fun z y e' regs' => z.Means e' regs' y := by
  cases r with
  | bitAnd => exact performs_bitAndEntry hp name ha hb
  | lShift => exact performs_shiftEntry hp name .lShift .left ha hb
  | rShift => exact performs_shiftEntry hp name .rShift .right ha hb
  | uRShift => exact performs_shiftEntry hp name .uRShift .unsignedRight ha hb
  | addI => exact performs_addEntry hp name ha hb
  | _ => exact performs_boxedEntry hp name _ ha hb

/-! ### Lanes -/

instance (h : Helper) (r : Unary) : Forward (Emit.unary h r) := by
  rw [unary_eq]
  infer_instance

instance (h : Helper) (r : Binary) : Forward (Emit.binary h r) := by
  rw [binary_eq]
  infer_instance

instance (mv : Move) : Forward mv.emit := by
  cases mv <;> unfold Move.emit <;> infer_instance

/-- Code before which everything is stored if it may throw. -/
theorem Realizes.syncIf {α β : Type} {x : Emit α} {y : LaneM β} [Forward x]
    {T : α → β → Emitter → IR.Registers → Prop} (hr : e.Ready) (k : Bool)
    (h : ∀ e₁ regs₁, (k = true → e₁.Synced) → Realizes host c e₁ regs₁ x y T) :
    Realizes host c e regs (do
      if k then Emit.syncAll
      x) (do
      if k then Lane.syncAll
      y) T := by
  cases k with
  | true => exact Realizes.bind (realizes_syncAll hr) fun _ _ e₁ regs₁ _ _ hsync => h e₁ regs₁ fun _ => hsync
  | false => exact h e regs nofun

theorem realizes_unary (name : String) (r : Unary) (hsync : (Action.unary r).throws = true → e.Synced) :
    Realizes host ((Action.unary r).throws = true) e regs (Emit.unary (.ofRoutine name (.unary r)) r) (do
      let x ← Lane.pop
      Lane.push .lazy (← Lane.onHeap (r.onItem x))) fun _ _ _ _ => True := by
  rw [unary_eq]
  refine Realizes.bind realizes_pop fun x y e₁ regs₁ ho hs hx => ?_
  refine .of_primed fun hp => Realizes.bind (realizes_onHeap (performs_unaryEntry hp name r hx.1)
    fun h => .inl (hx.2.2 (hsync h))) fun z w e₂ regs₂ _ _ hz => ?_
  exact (realizes_push hz.2).imp fun _ _ _ _ _ _ _ => trivial

theorem realizes_binary (name : String) (r : Binary) (hsync : (Action.binary r).throws = true → e.Synced) :
    Realizes host ((Action.binary r).throws = true) e regs (Emit.binary (.ofRoutine name (.binary r)) r) (do
      let b ← Lane.pop
      let a ← Lane.pop
      Lane.push .lazy (← Lane.onHeap (r.onItems a b))) fun _ _ _ _ => True := by
  rw [binary_eq]
  refine Realizes.bind realizes_pop fun b y e₁ regs₁ ho hs hb => ?_
  refine Realizes.bind realizes_pop fun a x e₂ regs₂ ho₂ hs₂ ha => ?_
  refine .of_primed fun hp => Realizes.bind (realizes_onHeap
    (performs_binaryEntry hp name r ha.1 (hb.1.kept ho₂ hs₂)) fun h => .inl (ha.2.2 (hb.2.2 (hsync h))))
    fun z w e₃ regs₃ _ _ hz => ?_
  exact (realizes_push hz.2).imp fun _ _ _ _ _ _ _ => trivial

/-- A routine is applied to a local. -/
theorem realizes_stepped {i : Int32} (hi : 0 ≤ i) {r : Unary} (hc : ¬c) :
    Realizes host c e regs (do
      let x ← Emit.getLocal i.toInt
      pure (Entry.object (← Emit.callHelper (Emit.helperOf r.opcode (.unary r)) [x.value]))) (do
      let v ← Lane.share i.toNatClampNeg
      Item.object <$> Lane.onHeap (r.run v)) fun z y e' regs' => z.Means e' regs' y := by
  have hget : Realizes host c e regs (Emit.getLocal i.toNatClampNeg) (Lane.share i.toNatClampNeg) _ :=
    realizes_getLocal (Int32.toInt64_eq_ofNat hi).2
  rw [← toInt_eq_toNatClampNeg hi] at hget
  refine Realizes.bind hget fun x v e₁ regs₁ _ _ hx => .of_primed fun hp => ?_
  refine (realizes_object (realizes_onHeap (performs_unaryCall hp _ r hx.1) fun h => absurd h hc)).imp ?_
  exact fun _ _ _ _ _ _ h => h.2

/-- Compiled code carries out a move on its lane. -/
theorem Move.exists_realizes (hr : e.Ready) {mv : Move} (hmv : mv.Within e.locals.size) :
    ∃ how, ∀ regs, Realizes host (mv.throws = true) e regs mv.emit (mv.lane .lazy how) fun _ _ _ _ => True := by
  cases mv with
  | idle => exact ⟨.later, fun regs => .pure trivial⟩
  | operation op => exact op.exists_realizes hmv
  | step i r =>
    obtain ⟨how, h⟩ : ∃ how, ∀ regs, Realizes host _ e regs _ _ fun _ _ _ _ => True :=
      exists_realizes_boxLocal hmv.1.1 fun regs => realizes_stepped (r := r) hmv.1.1 (c := false = true) nofun
    refine ⟨how, fun regs => ?_⟩
    have h := h regs
    simp only [bind_assoc, pure_bind, map_eq_pure_bind] at h
    exact h
  | unary name r =>
    exact ⟨.later, fun regs => .syncIf hr _ fun e₁ regs₁ hsync => realizes_unary name r hsync⟩
  | binary name r =>
    exact ⟨.later, fun regs => .syncIf hr _ fun e₁ regs₁ hsync => realizes_binary name r hsync⟩

end Compiler

end MethodJit
