import MethodJit.Proofs.Sides

/-!
# Instructions as tasks

A `Task` is an instruction whose immediates have been read, those that end a block included. What it does to
the operands and locals is an action on lanes, which also tells what comes next. Two lanes that are joined
can carry out the same task in lockstep, one at once and the other later.
-/

namespace MethodJit

open Compiler Interpreter

inductive Task
  | deed (d : Deed) (next : Nat)
  | returnVoid
  | returnValue
  | throw
  | test (t : Test) (target next : Nat)
  | compare (k : Comparison) (target next : Nat)
  | jump (distance : Int32) (target : Nat)

/-- An operand as an object. -/
def Lane.popObject : LaneM Value := do Lane.onHeap (← Lane.pop).box

/-- Two operands as objects, the lower one first. -/
def Lane.popObjects : LaneM (Value × Value) := do
  let y ← Lane.pop
  let x ← Lane.pop
  let v ← Lane.onHeap x.box
  let w ← Lane.onHeap y.box
  pure (v, w)

namespace Task

/-- Whether the task can throw before everything is in its place. -/
def throws : Task → Bool
  | .deed (.move mv) _ => mv.throws
  | _ => false

def Within (n : Nat) : Task → Prop
  | .deed d _ => d.Proper n
  | _ => True

def lane (mode : Mode) (how : Storing) : Task → LaneM Leap
  | .deed (.move mv) next => do
    mv.lane mode how
    pure (.goto next)
  | .deed (.call c) next => do
    Lane.syncAll
    pure (.call c next)
  | .returnVoid => do
    Lane.syncAll
    pure (.done .undefined)
  | .returnValue => do
    let v ← Lane.popObject
    Lane.syncAll
    pure (.done v)
  | .throw => do
    let v ← Lane.popObject
    Lane.syncAll
    pure (.raise v)
  | .test t target next => do
    let v ← Lane.popObject
    let take ← Lane.onHeap (t.run v)
    Lane.syncAll
    pure (.goto (if take then target else next))
  | .compare k target next => do
    let (v, w) ← Lane.popObjects
    let take ← Lane.onHeap (k.run v w)
    Lane.syncAll
    pure (.goto (if take then target else next))
  | .jump distance target => do
    Lane.syncAll
    pure (.call (.indexed .jump distance) target)

end Task

section Twins

variable {K : Origin} {s : Setting} {borrow : List Link} {t : Prop} {mode mode' : Mode}

theorem Lane.twin_popObject : Twin (laneBridge K s) borrow 0 t popObject popObject Gives :=
  twin_pop.bind fun _ _ _ hP => hP.1 ▸ twin_onHeap twin_boxItem

theorem Lane.twin_popObjects : Twin (laneBridge K s) borrow 0 t popObjects popObjects fun p q P =>
    P = {Link.pair p.1 q.1} + {Link.pair p.2 q.2} := by
  refine twin_pop.bind fun y y' P hP => ?_
  rw [hP.1, ← zero_add {Link.both y y'}]
  refine twin_pop.bind_rest fun x x' P hP => ?_
  rw [hP.1]
  refine (twin_onHeap twin_boxItem).bind_rest fun v v' P hP => ?_
  rw [hP, add_comm]
  refine (twin_onHeap twin_boxItem).bind_rest fun w w' P hP => ?_
  rw [hP, add_comm]
  exact Twin.pure rfl

/-- Everything is stored while values are in hand, before what comes next. -/
theorem Lane.twin_syncAll_then {pre : Multiset Link} {leap leap' : Leap} (h : Leap.Alike leap leap' pre) :
    Twin (laneBridge K s) borrow pre t
      (do
        syncAll
        pure leap)
      (do
        syncAll
        pure leap') Leap.Alike := by
  rw [← zero_add pre]
  refine twin_syncAll.bind_rest fun _ _ P hP => ?_
  rw [hP, zero_add]
  exact Twin.pure h

/-- Two lanes carry out the same task. -/
theorem Task.twin (hmode : mode' = .eager → mode = .eager) (hg : Link.pair s.global s.global ∈ borrow)
    (how how' : Storing) {n : Nat} {task : Task} (htask : task.Within n) :
    Twin (laneBridge K s) borrow 0 (task.throws = true) (task.lane mode how) (task.lane mode' how') Leap.Alike := by
  cases task with
  | deed d next =>
    cases d with
    | move mv =>
      refine (Move.twin hmode hg how how' htask).bind fun _ _ P hP => ?_
      rw [hP]
      exact Twin.pure (.goto next)
    | call c => exact Lane.twin_syncAll_then (.call c htask next)
  | returnVoid =>
    have h : Twin (laneBridge K s) borrow 0 (Task.returnVoid.throws = true) (do
          let v ← Lane.onHeap (pure .undefined)
          Lane.syncAll
          pure (.done v)) (do
          let v ← Lane.onHeap (pure .undefined)
          Lane.syncAll
          pure (.done v)) Leap.Alike := by
      refine (twin_onHeap (twin_immortal (by simp) (by simp))).bind fun v w P hP => ?_
      rw [hP]
      exact Lane.twin_syncAll_then (.done v w)
    exact h
  | returnValue =>
    refine Lane.twin_popObject.bind fun v w P hP => ?_
    rw [hP]
    exact Lane.twin_syncAll_then (.done v w)
  | throw =>
    refine Lane.twin_popObject.bind fun v w P hP => ?_
    rw [hP]
    exact Lane.twin_syncAll_then (.raise v w)
  | test t target next =>
    refine Lane.twin_popObject.bind fun v w P hP => ?_
    rw [hP]
    refine (twin_onHeap (twin_test t)).bind fun take _ P hP => ?_
    obtain ⟨rfl, rfl⟩ := hP
    exact Lane.twin_syncAll_then (.goto _)
  | compare k target next =>
    refine Lane.twin_popObjects.bind fun p q P hP => ?_
    rw [hP]
    refine (twin_onHeap (twin_compare k)).bind fun take _ P hP => ?_
    obtain ⟨rfl, rfl⟩ := hP
    exact Lane.twin_syncAll_then (.goto _)
  | jump distance target =>
    have hproper : (FrameCall.indexed .jump distance).Proper 0 := trivial
    exact Lane.twin_syncAll_then (.call _ hproper target)

end Twins

/-! ## Throwing tasks report no defects -/

/-- The action on a lane never fails with a defect of a method. -/
def Lane.Codeless {α : Type} (y : LaneM α) : Prop :=
  ∀ ℓ, Ends y ℓ (fun ε _ => ∀ e, ε ≠ .code e) fun _ _ => True

namespace Lane.Codeless

variable {α β : Type}

theorem bind {y : LaneM α} {g : α → LaneM β} (hy : Codeless y) (hg : ∀ a, Codeless (g a)) : Codeless (y >>= g) :=
  fun ℓ => (hy ℓ).bind fun a ℓ' _ => hg a ℓ'

theorem pure (a : α) : Codeless (pure a) := fun _ => trivial

theorem onHeap {x : HeapM α} (hx : MethodJit.Codeless x) : Codeless (Lane.onHeap x) := by
  intro ℓ
  have h := hx ℓ.heap
  unfold Ends at h ⊢
  unfold Lane.onHeap
  rw [Lane.reading_eq]
  cases hxh : x ℓ.heap with
  | ok a h' => trivial
  | error ε h' =>
    rw [hxh] at h
    exact h

theorem pop : Codeless Lane.pop := by
  intro ℓ
  unfold Ends Lane.pop
  cases ℓ.operands with
  | nil => exact fun _ => nofun
  | cons x rest => trivial

theorem push (mode : Mode) (x : Item) : Codeless (Lane.push mode x) := by
  intro ℓ
  unfold Ends Lane.push
  split
  · trivial
  · rename_i h
    split at h
    · cases h
      exact fun _ => nofun
    · cases h

theorem box (x : Item) : MethodJit.Codeless x.box := by
  cases x with
  | object v => exact .pure v
  | int n => exact .newInt n

theorem storeOperands (xs stored : List Item) : Codeless (Lane.storeOperands xs stored) := by
  induction xs generalizing stored with
  | nil => exact pure _
  | cons x xs ih =>
    refine (onHeap (box x)).bind fun v => bind (fun _ => trivial) fun _ => bind (fun _ => trivial) fun ℓ => ?_
    split
    · exact fun _ _ => nofun
    · exact ih _

theorem syncLocalsFrom (n i : Nat) : Codeless (Lane.syncLocalsFrom n i) := by
  induction n generalizing i with
  | zero => exact pure _
  | succ n ih =>
    refine bind (fun ℓ => ?_) fun _ => ih (i + 1)
    unfold Lane.storeLocal Ends
    simp only
    split
    · trivial
    · rename_i h
      split at h
      · exact (onHeap (.releaseBound _) _).error h
      · cases h

theorem syncAll : Codeless Lane.syncAll :=
  bind (fun ℓ => storeOperands _ _ ℓ) fun _ ℓ => syncLocalsFrom _ _ ℓ

end Lane.Codeless

theorem codeless_convertO (x : Item) : Codeless (Unary.convertO.onItem x) := by
  cases x with
  | object v => exact (Codeless.unary .convertO v).map
  | int n => exact (Codeless.newInt n).bind fun v => (Codeless.unary .convertO v).map

theorem codeless_instanceOf (x y : Item) : Codeless (Binary.instanceOf.onItems x y) :=
  (Lane.Codeless.box x).bind fun v => (Lane.Codeless.box y).bind fun w => (Codeless.binary .instanceOf v w).map

/-- A task that throws before everything is in its place reports no defect. -/
theorem Task.codeless {task : Task} (ht : task.throws = true) (mode : Mode) (how : Storing) :
    Lane.Codeless (task.lane mode how) := by
  have hgoto {y : LaneM Unit} (next : Nat) (hy : Lane.Codeless y) :
      Lane.Codeless (do y; pure (Leap.goto next)) := hy.bind fun _ => .pure _
  cases task with
  | deed d next =>
    cases d with
    | move mv =>
      apply hgoto next
      cases mv with
      | unary name r =>
        obtain rfl := throws_unary.1 ht
        exact .bind .syncAll fun _ => .bind .pop fun x => .bind (.onHeap (codeless_convertO x)) fun y => .push mode y
      | binary name r =>
        obtain rfl := throws_binary.1 ht
        exact .bind .syncAll fun _ => .bind .pop fun y => .bind .pop fun x =>
          .bind (.onHeap (codeless_instanceOf x y)) fun z => .push mode z
      | _ => cases ht
    | call c => cases ht
  | _ => cases ht

/-! ## Reading tasks -/

/-- The instruction with the byte, whose immediates start at a position, is the task. -/
inductive Denotes (m : Method) (byte : UInt8) (pos : Nat) : Task → Prop
  | deed {d : Deed} {next : Nat} (hfixed : ∀ i, (actionOfByte byte).fixed? = some i → (i : Int) < m.locals.toInt)
    (hd : (actionOfByte byte).deed m (Opcode.nameOfByte byte) ⟨m.bytes, pos⟩ = .ok d ⟨m.bytes, next⟩) :
    Denotes m byte pos (.deed d next)
  | returnVoid (ha : actionOfByte byte = .returnVoid) : Denotes m byte pos .returnVoid
  | returnValue (ha : actionOfByte byte = .returnValue) : Denotes m byte pos .returnValue
  | throw (ha : actionOfByte byte = .throw) : Denotes m byte pos .throw
  | test {t : Test} {d : Int} {next : Nat} (ha : actionOfByte byte = .test t)
    (hd : Cursor.s24 ⟨m.bytes, pos⟩ = .ok d ⟨m.bytes, next⟩) (hrange : 0 ≤ next + d ∧ next + d ≤ m.bytes.size) :
    Denotes m byte pos (.test t (next + d).toNat next)
  | compare {k : Comparison} {d : Int} {next : Nat} (ha : actionOfByte byte = .compare k)
    (hd : Cursor.s24 ⟨m.bytes, pos⟩ = .ok d ⟨m.bytes, next⟩) (hrange : 0 ≤ next + d ∧ next + d ≤ m.bytes.size) :
    Denotes m byte pos (.compare k (next + d).toNat next)
  | jump {d : Int} {next : Nat} (ha : actionOfByte byte = .jump)
    (hd : Cursor.s24 ⟨m.bytes, pos⟩ = .ok d ⟨m.bytes, next⟩) (hrange : 0 ≤ next + d ∧ next + d ≤ m.bytes.size) :
    Denotes m byte pos (.jump (.ofInt d) (next + d).toNat)

section Reading

variable {m : Method} {byte : UInt8} {pos next : Nat} {task : Task}

/-- An instruction that is as it should be is a task. -/
theorem exists_denotes (h : Readable m (actionOfByte byte) pos) : ∃ task, Denotes m byte pos task := by
  obtain ⟨next, hreads⟩ := h.reads
  cases hends : (actionOfByte byte).ends with
  | false =>
    have hdeed : ∃ d, (actionOfByte byte).deed m (Opcode.nameOfByte byte) ⟨m.bytes, pos⟩ = .ok d ⟨m.bytes, next⟩ :=
      exists_deed hends h.supported hreads
    obtain ⟨d, hd⟩ := hdeed
    exact ⟨_, .deed h.fixed hd⟩
  | true =>
    cases ha : actionOfByte byte with
    | returnVoid => exact ⟨_, .returnVoid ha⟩
    | returnValue => exact ⟨_, .returnValue ha⟩
    | throw => exact ⟨_, .throw ha⟩
    | test t =>
      obtain ⟨d, next, hd, hrange⟩ := h.target (by rw [ha]; rfl)
      exact ⟨_, .test ha hd hrange⟩
    | compare k =>
      obtain ⟨d, next, hd, hrange⟩ := h.target (by rw [ha]; rfl)
      exact ⟨_, .compare ha hd hrange⟩
    | jump =>
      obtain ⟨d, next, hd, hrange⟩ := h.target (by rw [ha]; rfl)
      exact ⟨_, .jump ha hd hrange⟩
    | _ =>
      rw [ha] at hends
      cases hends

theorem Denotes.within (h : Denotes m byte (pos + 1) task) (hapart : m.EnumeratesApart) (hpos : StartsAt m.bytes pos)
    (hbyte : m.bytes[pos]? = some byte) : task.Within m.locals.toNatClampNeg := by
  cases h with
  | deed hfixed hd =>
    refine proper_deed (proper_actionOfByte byte) hfixed ?_ hd
    exact fun ha i j c c' => hapart pos byte i j c c' hpos hbyte ha
  | _ => trivial

end Reading

/-! ## The interpreter -/

section Interpreting

variable {σ α β : Type} {host : Host σ} {m : Method} {c : Prop} {mc mc' : Machine σ}

/-- A run that has everything in its frame, of which `F` holds. -/
def Side.resting (F : Frame → Prop) (run : Act σ Value) : Side σ where
  fits mc ℓ := F mc.frame ∧ mc.Real ℓ
  run := run

/-- There is nothing to store. -/
theorem Side.resting_syncAll (F : Frame → Prop) (run : Act σ Value) :
    (Side.resting F run).Carries c Lane.syncAll fun _ T => T = Side.resting F run := by
  rintro mc ℓ ⟨hF, V, hf, rfl⟩
  have h := follows_syncAll mc V hf
  obtain ⟨-, b, V', hf', hy, -⟩ := h.ok rfl
  exact ends_of_ok hy ⟨_, mc, rfl, ⟨hF, V', hf', rfl⟩, rfl, rfl⟩

/-- A run of a method that has everything in its frame. -/
def Side.real (m : Method) (run : Act σ Value) : Side σ := Side.resting (Steady m) run

/-- The interpreter at a position, with steps left. -/
def Side.interpreted (host : Host σ) (m : Method) (n pos : Nat) : Side σ :=
  Side.real m (Interpreter.run host m.bytes n pos)

instance (i : Int32) (v : Value) : Spares (fun _ => True) (putLocal i v : Act σ Unit) := by
  unfold putLocal
  infer_instance

instance (src : Source) : Spares (fun _ => True) (src.perform : Act σ Value) := by
  cases src <;> unfold Source.perform <;> infer_instance

instance : Spares (fun _ => True) (peek : Act σ Value) := by
  unfold peek
  infer_instance

instance (op : Operation) : Spares (fun _ => True) (op.perform : Act σ Unit) := by
  cases op <;> unfold Operation.perform <;> infer_instance

instance (mv : Move) : Spares (fun _ => True) (mv.perform : Act σ Unit) := by
  cases mv with
  | operation op =>
    cases op <;> unfold Move.perform <;> infer_instance
  | _ =>
    unfold Move.perform
    infer_instance

end Interpreting

end MethodJit
