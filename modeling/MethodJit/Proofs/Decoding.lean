import MethodJit.Proofs.Interpretation
import MethodJit.Proofs.Moves
import MethodJit.Proofs.Sparing

/-!
# Decoded instructions

An instruction that goes on behind its immediates is a move or the call of a routine on the frame, once its
immediates are read. The interpreter carries out what was read, and the compiler emits code for it.
-/

namespace MethodJit

open Compiler Interpreter IR

/-- The call of a routine on the frame. -/
inductive FrameCall
  | frame (a : FrameAction)
  | indexed (a : IndexedAction) (i : Int32)
  | pair (a : PairAction) (i j : Int32)

/-- What an instruction does whose immediates have been read. -/
inductive Deed
  | move (mv : Move)
  | call (c : FrameCall)

variable {σ : Type} {host : Host σ}

def FrameCall.run (host : Host σ) : FrameCall → Act σ Unit
  | .frame a => a.run
  | .indexed a i => a.run host i
  | .pair a i j => a.run host i j

def FrameCall.emit (name : String) : FrameCall → Emit Unit
  | .frame a => do
    let _ ← Emit.callHelper (.ofRoutine name (.frame a)) [paramFrame]
  | .indexed a i => do
    let n ← Emit.const i
    let _ ← Emit.callHelper (.ofRoutine name (.indexed a)) [paramFrame, n]
  | .pair a i j => do
    let m ← Emit.const i
    let n ← Emit.const j
    let _ ← Emit.callHelper (.ofRoutine name (.pair a)) [paramFrame, m, n]

/-- Forgets what is known of the locals that the routine has changed. -/
def FrameCall.forget : FrameCall → Emit Unit
  | .pair .hasNext2 i j => do
    Emit.invalidateLocal i.toInt
    Emit.invalidateLocal j.toInt
  | _ => pure ()

namespace Deed

def perform (host : Host σ) : Deed → Act σ Unit
  | .move mv => mv.perform
  | .call c => c.run host

def emit (name : String) : Deed → Emit Unit
  | .move mv => mv.emit
  | .call c => do
    Emit.syncAll
    c.emit name
    c.forget

end Deed

namespace Action

/-- Reads what an instruction does that goes on behind its immediates. -/
def deed (m : Method) (name : String) (a : Action) : Cursor.Read Deed :=
  match a with
  | .none => pure (.move .idle)
  | .debug => do
    Layout.debug.skip
    pure (.move .idle)
  | .note => do
    let _ ← Cursor.u30
    pure (.move .idle)
  | .pushByte => do pure (.move (.operation (.push (.int (signExtend8 (← Cursor.byte))))))
  | .pushShort => do pure (.move (.operation (.push (.int (signExtend16 (← Cursor.u30))))))
  | .pop => pure (.move (.operation .discard))
  | .dup => pure (.move (.operation .dup))
  | .swap => pure (.move (.operation .swap))
  | .getLocal => do pure (.move (.operation (.push (.copy (.ofNat (← Immediate.Kind.local.reader m))))))
  | .getFixed i => pure (.move (.operation (.push (.copy (.ofNat i)))))
  | .setLocal => do pure (.move (.operation (.store (.ofNat (← Immediate.Kind.local.reader m)))))
  | .setFixed i => pure (.move (.operation (.store (.ofNat i))))
  | .kill => do
    let i ← Immediate.Kind.local.reader m
    pure (.move (.operation (.assign (.ofNat i) (.supply Opcode.pushUndefined.name .pushUndefined))))
  | .stepLocal r => do pure (.move (.step (.ofNat (← Immediate.Kind.local.reader m)) r))
  | .supply s => pure (.move (.operation (.push (.supply name s))))
  | .constant c => do
    pure (.move (.operation (.push (.constant name c (.ofNat (← c.immediate.reader m))))))
  | .frame a => pure (.call (.frame a))
  | .scopeObject => do pure (.call (.indexed .getScopeObject (.ofNat (← Immediate.Kind.byte.reader m))))
  | .named a => do pure (.call (.indexed a (.ofNat (← Immediate.Kind.name.reader m))))
  | .counted a => do pure (.call (.indexed a (.ofNat (← Immediate.Kind.count.reader m))))
  | .namedCounted a => do
    let i ← Immediate.Kind.name.reader m
    let n ← Immediate.Kind.count.reader m
    pure (.call (.pair a (.ofNat i) (.ofNat n)))
  | .hasNext2 => do
    let i ← Immediate.Kind.local.reader m
    let j ← Immediate.Kind.local.reader m
    pure (.call (.pair .hasNext2 (.ofNat i) (.ofNat j)))
  | .unary r => pure (.move (.unary name r))
  | .binary r => pure (.move (.binary name r))
  | _ => MonadExcept.throw .ended

end Action

/-! ## Reading -/

variable {m : Method} {name : String} {a : Action} {c c' : Cursor} {d : Deed}

/-- The immediates of a deed are those of the instruction. -/
theorem exists_deed (hends : a.ends = false) (hs : a ≠ .unsupported ∧ a ≠ .lookupSwitch)
    (h : a.reader m c = .ok () c') : ∃ d, a.deed m name c = .ok d c' := by
  have hone {α : Type} {r : Cursor.Read α} (f : α → Deed) (hr : (do let _ ← r) c = .ok () c') :
      ∃ d, (do pure (f (← r)) : Cursor.Read Deed) c = .ok d c' := by
    obtain ⟨x, c₁, hx, hrest⟩ := bind_eq_ok hr
    cases hrest
    exact ⟨f x, bind_of_ok hx⟩
  have htwo {α β : Type} {r : Cursor.Read α} {r' : Cursor.Read β} (f : α → β → Deed)
      (hr : (do let _ ← r; let _ ← r') c = .ok () c') :
      ∃ d, (do let x ← r; let y ← r'; pure (f x y) : Cursor.Read Deed) c = .ok d c' := by
    obtain ⟨x, c₁, hx, hrest⟩ := bind_eq_ok hr
    obtain ⟨y, c₂, hy, hrest⟩ := bind_eq_ok hrest
    cases hrest
    exact ⟨f x y, (bind_of_ok hx).trans (bind_of_ok hy)⟩
  cases a with
  | debug => exact ⟨_, bind_of_ok h⟩
  | note => exact hone (fun _ => .move .idle) h
  | pushByte | pushShort | getLocal | setLocal | kill | stepLocal r | constant c | scopeObject | named a
  | counted a => exact hone _ h
  | namedCounted a | hasNext2 => exact htwo _ h
  | none | pop | dup | swap | getFixed i | setFixed i | supply s | frame a | unary r | binary r =>
    exact ⟨_, congrArg _ (EStateM.Result.ok.inj h).2⟩
  | returnVoid | returnValue | throw | test t | compare k | jump => cases hends
  | lookupSwitch => exact absurd rfl hs.2
  | unsupported => exact absurd rfl hs.1

/-- The index of a local that was read is one of the method. -/
theorem lt_of_local {i : Nat} (h : Immediate.Kind.local.reader m c = .ok i c') :
    i < 2 ^ 30 ∧ (i : Int) < m.locals.toInt :=
  ⟨Cursor.lt_of_u30 (Cursor.u30_of_index h), Cursor.lt_of_index h⟩

theorem toInt_ofNat {i : Nat} (hi : i < 2 ^ 30) : (Int32.ofNat i).toInt = i :=
  Int32.toInt_ofNat_of_lt (by omega)

theorem toNatClampNeg_ofNat_word {i : Nat} (hi : i < 2 ^ 30) : (Int32.ofNat i).toNatClampNeg = i := by
  have h := toInt_eq_toNatClampNeg (nonneg_ofNat hi)
  rw [toInt_ofNat hi] at h
  omega

theorem lt_toNatClampNeg {i : Nat} {n : Int64} (h : (i : Int) < n.toInt) : i < n.toNatClampNeg := by
  have : n.toNatClampNeg = n.toInt.toNat := rfl
  omega

/-! ## Proper deeds -/

/-- The routine is one that an instruction can call, and it finds its locals among the first `n`. -/
def FrameCall.Proper (n : Nat) : FrameCall → Prop
  | .frame a => a ≠ .bindArguments
  | .indexed _ _ => True
  | .pair a i j => a = .hasNext2 → (0 ≤ i ∧ i.toNatClampNeg < n) ∧ (0 ≤ j ∧ j.toNatClampNeg < n) ∧ i ≠ j

def Deed.Proper (n : Nat) : Deed → Prop
  | .move mv => mv.Within n
  | .call c => c.Proper n

theorem within_local {i : Nat} (h : Immediate.Kind.local.reader m c = .ok i c') :
    0 ≤ Int32.ofNat i ∧ (Int32.ofNat i).toNatClampNeg < m.locals.toNatClampNeg := by
  obtain ⟨hlt, hi⟩ := lt_of_local h
  rw [toNatClampNeg_ofNat_word hlt]
  exact ⟨nonneg_ofNat hlt, lt_toNatClampNeg hi⟩

/-- What was read is proper if enumerations are held by two locals. -/
theorem proper_deed (ha : a.proper = true) (hfixed : ∀ i, a.fixed? = some i → (i : Int) < m.locals.toInt)
    (hapart : a = .hasNext2 → ∀ i j c₁ c₂, Cursor.u30 c = .ok i c₁ → Cursor.u30 c₁ = .ok j c₂ → i ≠ j)
    (hd : a.deed m name c = .ok d c') : d.Proper m.locals.toNatClampNeg := by
  have hfix {i : Nat} (hi : i < 4) (hlt : (i : Int) < m.locals.toInt) :
      0 ≤ Int32.ofNat i ∧ (Int32.ofNat i).toNatClampNeg < m.locals.toNatClampNeg := by
    have hi : i < 2 ^ 30 := hi.trans (by decide)
    rw [toNatClampNeg_ofNat_word hi]
    exact ⟨nonneg_ofNat hi, lt_toNatClampNeg hlt⟩
  cases a with
  | none | pop | dup | swap | supply s | unary r | binary r =>
    cases hd
    trivial
  | debug | note | pushByte | pushShort | constant k | scopeObject | named a | counted a =>
    obtain ⟨x, c₁, hx, hrest⟩ := bind_eq_ok hd
    cases hrest
    trivial
  | getFixed i | setFixed i =>
    cases hd
    exact hfix (of_decide_eq_true ha) (hfixed i rfl)
  | getLocal | setLocal =>
    obtain ⟨i, c₁, hi, hrest⟩ := bind_eq_ok hd
    cases hrest
    exact within_local hi
  | kill =>
    obtain ⟨i, c₁, hi, hrest⟩ := bind_eq_ok hd
    cases hrest
    exact ⟨trivial, within_local hi⟩
  | stepLocal r =>
    obtain ⟨i, c₁, hi, hrest⟩ := bind_eq_ok hd
    cases hrest
    refine ⟨within_local hi, ?_⟩
    rintro rfl
    cases ha
  | frame a =>
    cases hd
    rintro rfl
    cases ha
  | namedCounted a =>
    obtain ⟨i, c₁, hi, hrest⟩ := bind_eq_ok hd
    obtain ⟨n, c₂, hn, hrest⟩ := bind_eq_ok hrest
    cases hrest
    rintro rfl
    cases ha
  | hasNext2 =>
    obtain ⟨i, c₁, hi, hrest⟩ := bind_eq_ok hd
    obtain ⟨j, c₂, hj, hrest⟩ := bind_eq_ok hrest
    cases hrest
    refine fun _ => ⟨within_local hi, within_local hj, fun heq => ?_⟩
    have hne := hapart rfl i j _ _ (Cursor.u30_of_index hi) (Cursor.u30_of_index hj)
    exact hne (ofNat_inj_of_lt (lt_of_local hi).1 (lt_of_local hj).1 heq)
  | returnVoid | returnValue | throw | test t | compare k | jump | lookupSwitch | unsupported => cases hd

namespace FrameCall

variable {K : Origin} {s : Setting} {I : σ → Prop} {G borrow : List Link} {n : Nat} {c : FrameCall}

/-- The routine does the same in two invocations. -/
theorem twin (hhost : Faithful K I G host) (hG : ∀ l ∈ G, l ∈ borrow) (hg : Link.pair s.global s.global ∈ borrow)
    (hc : c.Proper n) : Twin (machineBridge K s I) borrow 0 True (c.run host) (c.run host) Done := by
  cases c with
  | frame a => exact Machine.twin_framed hc
  | indexed a i => exact Machine.twin_indexed hhost hG hg a i
  | pair a i j =>
    by_cases ha : a = .hasNext2
    · subst ha
      obtain ⟨⟨hi, -⟩, ⟨hj, -⟩, hne⟩ := hc rfl
      have h : Twin (machineBridge K s I) borrow 0 True (PairAction.hasNext2.run host i j)
          (PairAction.hasNext2.run host i j) Done := Machine.twin_hasNext2 hi hj hne
      exact h
    · exact Machine.twin_paired hhost hG ha i j

/-- The locals that the routine changes. -/
def Changes : FrameCall → Nat → Prop
  | .pair .hasNext2 i j, k => k = i.toNatClampNeg ∨ k = j.toNatClampNeg
  | _, _ => False

theorem spares (hc : c.Proper n) : Spares c.Changes (c.run host) := by
  cases c with
  | frame a => exact Spares.framed hc
  | indexed a i => exact inferInstanceAs (Spares _ (a.run host i))
  | pair a i j =>
    by_cases ha : a = .hasNext2
    · subst ha
      obtain ⟨⟨hi, -⟩, ⟨hj, -⟩, -⟩ := hc rfl
      have h := Spares.hasNext2 (σ := σ) i j
      obtain ⟨hi64, hlt⟩ := Int32.toInt64_eq_ofNat hi
      obtain ⟨hj64, hlt'⟩ := Int32.toInt64_eq_ofNat hj
      rw [hi64, hj64, toNatClampNeg_ofNat (hlt.trans (by decide)), toNatClampNeg_ofNat (hlt'.trans (by decide))] at h
      exact h
    · exact Spares.paired host ha i j

end FrameCall

/-! ## Carrying out deeds -/

section Performing

variable {mc : Machine σ} {α : Type} {pos next start : Nat}

end Performing

/-! ## Emitting deeds -/

section Emitting

variable {e : Emitter} {α : Type} {pos next : Nat} {byte : UInt8}

theorem emitFetch_ok {read : Cursor.Read α} {x : α} (h : read ⟨e.method.bytes, pos⟩ = .ok x ⟨e.method.bytes, next⟩) :
    Emit.fetch pos read e = .ok (x, next) e := by
  unfold Emit.fetch
  rw [get_bind, h]
  rfl

theorem readImmediate_ok {k : Immediate.Kind} {i : Nat}
    (h : k.reader e.method ⟨e.method.bytes, pos⟩ = .ok i ⟨e.method.bytes, next⟩) (hk : k ≠ .none) :
    Emit.readImmediate pos k e = .ok (i, next) e := by
  unfold Emit.readImmediate
  rw [get_bind]
  cases k with
  | none => exact absurd rfl hk
  | _ => exact emitFetch_ok h

theorem fixedLocal_ok {i : Nat} (hi : (i : Int) < e.method.locals.toInt) : Emit.fixedLocal i e = .ok () e := by
  unfold Emit.fixedLocal
  rw [get_bind, if_neg (Int.not_le.2 hi)]
  rfl

theorem box_object (v : ValueId) : Emit.box (.object v) = pure (.object v) := rfl

theorem forget_pair {a : PairAction} (ha : a ≠ .hasNext2) (i j : Int32) : (FrameCall.pair a i j).forget = pure () := by
  cases a <;> first | rfl | exact absurd rfl ha

/-- The compiler emits code for what was read and goes on behind it. -/
theorem instruction_deed (ha : (actionOfByte byte).proper = true)
    (hfixed : ∀ i, (actionOfByte byte).fixed? = some i → (i : Int) < e.method.locals.toInt)
    (hd : (actionOfByte byte).deed e.method (Opcode.nameOfByte byte) ⟨e.method.bytes, pos⟩ =
      .ok d ⟨e.method.bytes, next⟩) :
    Emit.instruction byte pos e = (do d.emit (Opcode.nameOfByte byte); pure next) e := by
  unfold Emit.instruction
  revert ha hfixed hd
  generalize actionOfByte byte = a
  intro ha hfixed hd
  cases a with
  | none =>
    cases hd
    rfl
  | unary r | binary r =>
    cases hd
    simp only [Deed.emit, Move.emit]
    split <;> simp only [bind_assoc]
  | pop | dup | swap | supply s | frame a =>
    cases hd
    simp only [Deed.emit, Move.emit, Operation.emit, Source.emit, FrameCall.emit, FrameCall.forget, bind_assoc,
      pure_bind]
  | getFixed i | setFixed i =>
    cases hd
    have hi : i < 2 ^ 30 := (of_decide_eq_true ha).trans (by decide)
    simp only [bind_of_ok (fixedLocal_ok (hfixed i rfl)), Deed.emit, Move.emit, Operation.emit, Source.emit,
      toInt_ofNat hi, bind_assoc]
  | getLocal | setLocal | stepLocal r =>
    obtain ⟨i, c₁, hi, hrest⟩ := bind_eq_ok hd
    cases hrest
    simp only [Emit.fetchLocal, bind_of_ok (readImmediate_ok hi (by decide)), Deed.emit, Move.emit, Operation.emit,
      Source.emit, toInt_ofNat (lt_of_local hi).1, bind_assoc]
  | kill =>
    obtain ⟨i, c₁, hi, hrest⟩ := bind_eq_ok hd
    cases hrest
    simp only [Emit.fetchLocal, bind_of_ok (readImmediate_ok hi (by decide)), Deed.emit, Move.emit, Operation.emit,
      Source.emit, toInt_ofNat (lt_of_local hi).1, bind_assoc, pure_bind, box_object, Emit.helperOf]
  | debug =>
    obtain ⟨_, c₁, hskip, hrest⟩ := bind_eq_ok hd
    cases hrest
    simp only [bind_of_ok (emitFetch_ok hskip), Deed.emit, Move.emit, pure_bind]
  | note | pushByte | pushShort =>
    obtain ⟨n, c₁, hn, hrest⟩ := bind_eq_ok hd
    cases hrest
    simp only [bind_of_ok (emitFetch_ok hn), Deed.emit, Move.emit, Operation.emit, Source.emit, bind_assoc, pure_bind]
  | scopeObject | counted a | named a =>
    obtain ⟨n, c₁, hn, hrest⟩ := bind_eq_ok hd
    cases hrest
    simp only [Emit.indexed, bind_of_ok (readImmediate_ok hn (by decide)), Action.immediates, Deed.emit, FrameCall.emit,
      FrameCall.forget, bind_assoc, pure_bind]
  | constant k =>
    obtain ⟨n, c₁, hn, hrest⟩ := bind_eq_ok hd
    cases hrest
    simp only [Action.immediates, bind_of_ok (readImmediate_ok hn (by cases k <;> decide)), Deed.emit, Move.emit,
      Operation.emit, Source.emit, bind_assoc, pure_bind]
  | namedCounted a =>
    obtain ⟨i, ⟨code, mid⟩, hi, hrest⟩ := bind_eq_ok hd
    obtain ⟨n, c₂, hn, hrest⟩ := bind_eq_ok hrest
    cases hrest
    obtain rfl : code = e.method.bytes := (Cursor.advances_kind e.method .name _ _ _ hi).1
    have hne : a ≠ .hasNext2 := by
      rintro rfl
      cases ha
    have hforget := forget_pair hne (.ofNat i) (.ofNat n)
    simp only [Emit.pair, Action.immediates, bind_assoc, bind_of_ok (readImmediate_ok hi (by decide)),
      bind_of_ok (readImmediate_ok hn (by decide)), Deed.emit, FrameCall.emit, hforget, pure_bind]
  | hasNext2 =>
    obtain ⟨i, ⟨code, mid⟩, hi, hrest⟩ := bind_eq_ok hd
    obtain ⟨j, c₂, hj, hrest⟩ := bind_eq_ok hrest
    cases hrest
    obtain rfl : code = e.method.bytes := (Cursor.advances_kind e.method .local _ _ _ hi).1
    simp only [Emit.pair, Action.immediates, bind_assoc, bind_of_ok (readImmediate_ok hi (by decide)),
      bind_of_ok (readImmediate_ok hj (by decide)), Deed.emit, FrameCall.emit, FrameCall.forget, pure_bind,
      toInt_ofNat (lt_of_local hi).1, toInt_ofNat (lt_of_local hj).1]
  | returnVoid | returnValue | throw | test t | compare k | jump | lookupSwitch | unsupported => cases hd

end Emitting

end MethodJit
