import MethodJit.Proofs.Blocks

/-!
# The code of single instructions

`Emit.instruction` on a ready emitter either reports a defect of the method or reads the immediates of the
instruction, and generates code that goes on in the block or ends it. Which of both depends on the
instruction only.
-/

namespace MethodJit

/-- How an immediate of a kind is read in a method. -/
def Immediate.Kind.reader (m : Method) : Immediate.Kind → Cursor.Read Nat
  | .name => Cursor.index .names m.constants.names.size
  | .int => Cursor.index .ints m.constants.ints.size
  | .uint => Cursor.index .uints m.constants.uints.size
  | .double => Cursor.index .doubles m.constants.doubles.size
  | .string => Cursor.index .strings m.constants.strings.size
  | .count => Cursor.u30
  | .local => Cursor.index .locals m.locals.toInt
  | .byte => Cursor.byte
  | .none => throw .ended

namespace Action

/-- Reads past the immediates of an instruction, and checks them. -/
def reader (m : Method) (a : Action) : Cursor.Read Unit :=
  match a with
  | .debug => Layout.debug.skip
  | .note | .pushShort => do
    let _ ← Cursor.u30
  | .pushByte => do
    let _ ← Cursor.byte
  | .getLocal | .setLocal | .kill | .stepLocal _ => do
    let _ ← Immediate.Kind.local.reader m
  | .constant _ | .scopeObject | .named _ | .counted _ => do
    let _ ← a.immediates.1.reader m
  | .namedCounted _ | .hasNext2 => do
    let _ ← a.immediates.1.reader m
    let _ ← a.immediates.2.reader m
  | .test _ | .compare _ | .jump => do
    let _ ← Cursor.s24
  | .lookupSwitch => do
    let _ ← readSwitch
  | _ => pure ()

/-- The local that an instruction implies. -/
def fixed? : Action → Option Nat
  | .getFixed i | .setFixed i => some i
  | _ => Option.none

/-- Whether an instruction has a target. -/
def hasTarget : Action → Bool
  | .test _ | .compare _ | .jump => true
  | _ => false

/-- Whether an instruction is the last one of its block. -/
def ends : Action → Bool
  | .returnVoid | .returnValue | .throw => true
  | a => a.hasTarget

theorem ends_of_hasTarget {a : Action} (h : a.hasTarget = true) : a.ends = true := by
  cases a <;> first | rfl | exact absurd h Bool.false_ne_true

theorem fixed?_of_ends {a : Action} (h : a.ends = true) : a.fixed? = Option.none := by
  cases a <;> first | rfl | exact absurd h Bool.false_ne_true

theorem supported_of_ends {a : Action} (h : a.ends = true) : a ≠ .unsupported ∧ a ≠ .lookupSwitch := by
  constructor <;> rintro rfl <;> cases h

/-- Whether an instruction is a supported one that does not imply a local and does not end its block. -/
def plain : Action → Bool
  | .getFixed _ | .setFixed _ | .lookupSwitch | .unsupported => false
  | a => !a.ends

theorem of_plain {a : Action} (h : a.plain = true) :
    a.ends = false ∧ a.fixed? = Option.none ∧ a ≠ .unsupported ∧ a ≠ .lookupSwitch := by
  cases a <;> first | exact absurd h Bool.false_ne_true | exact ⟨rfl, rfl, nofun, nofun⟩

/-- An instruction that leaves the method has no immediates. -/
theorem reader_of_ends {a : Action} (h : a.ends = true) (ht : a.hasTarget = false) (m : Method) :
    a.reader m = pure () := by
  cases a <;> first | rfl | exact absurd h Bool.false_ne_true | exact absurd ht.symm Bool.false_ne_true

theorem reader_of_hasTarget {a : Action} (h : a.hasTarget = true) (m : Method) :
    a.reader m = (do let _ ← Cursor.s24) := by
  cases a <;> first | rfl | exact absurd h Bool.false_ne_true

end Action

namespace Cursor

theorem advances_kind (m : Method) (k : Immediate.Kind) : Advances (k.reader m) := by
  cases k with
  | name | int | uint | double | string | «local» => exact advances_index _ _
  | count => exact advances_u30
  | byte => exact advances_byte
  | none => exact advances_throw _

theorem advances_reader (m : Method) (a : Action) : Advances (a.reader m) := by
  cases a with
  | debug => exact advances_skip .debug
  | note | pushShort => exact advances_u30.bind fun _ => advances_pure _
  | pushByte => exact advances_byte.bind fun _ => advances_pure _
  | getLocal | setLocal | kill | stepLocal _ =>
    exact (advances_kind _ _).bind fun _ => advances_pure _
  | constant _ | scopeObject | named _ | counted _ =>
    exact (advances_kind _ _).bind fun _ => advances_pure _
  | namedCounted _ | hasNext2 =>
    exact (advances_kind _ _).bind fun _ => (advances_kind _ _).bind fun _ => advances_pure _
  | test _ | compare _ | jump => exact advances_s24.bind fun _ => advances_pure _
  | lookupSwitch => exact advances_readSwitch.bind fun _ => advances_pure _
  | _ => exact advances_pure _

theorem lt_of_index {table : Table} {size : Int} {c c' : Cursor} {i : Nat}
    (h : index table size c = .ok i c') : (i : Int) < size := by
  obtain ⟨j, c₁, -, h₂⟩ := bind_eq_ok h
  split at h₂
  · cases h₂
    assumption
  · cases h₂

end Cursor

namespace Compiler

open IR

variable {α : Type} {e e' e'' : Emitter} {E : Fault → Emitter → Prop} {p pos : Nat}

/-! ## Reading -/

theorem fetch_spec {read : Cursor.Read α} (ha : Cursor.Advances read) :
    Ends (Emit.fetch pos read) e Refuses fun r e' =>
      e' = e ∧ read ⟨e.method.bytes, pos⟩ = .ok r.1 ⟨e.method.bytes, r.2⟩ := by
  unfold Emit.fetch
  rw [ends_bind, ends_get]
  cases hread : read ⟨e.method.bytes, pos⟩ with
  | ok a c =>
    obtain ⟨code, next⟩ := c
    have hcode : code = e.method.bytes := (ha _ _ _ hread).1
    subst hcode
    exact ⟨rfl, rfl⟩
  | error f c => exact ⟨f, rfl⟩

theorem readImmediate_spec {k : Immediate.Kind} (hk : k ≠ .none) :
    Ends (Emit.readImmediate pos k) e Refuses fun r e' =>
      e' = e ∧ k.reader e.method ⟨e.method.bytes, pos⟩ = .ok r.1 ⟨e.method.bytes, r.2⟩ := by
  unfold Emit.readImmediate
  rw [ends_bind, ends_get]
  cases k with
  | none => exact absurd rfl hk
  | name | int | uint | double | string | «local» => exact fetch_spec (Cursor.advances_index _ _)
  | count => exact fetch_spec Cursor.advances_u30
  | byte => exact fetch_spec Cursor.advances_byte

theorem lt_size_of_lt_toInt (hs : e.Sound) {i : Nat} (h : (i : Int) < e.method.locals.toInt) :
    i < e.locals.size := by
  rw [hs.numLocals, Int64.toNatClampNeg]
  omega

theorem lt_size_of_reader (hs : e.Sound) {i : Nat} {c c' : Cursor}
    (h : Immediate.Kind.local.reader e.method c = .ok i c') : i < e.locals.size :=
  lt_size_of_lt_toInt hs (Cursor.lt_of_index h)

theorem fixedLocal_spec {i : Nat} :
    Ends (Emit.fixedLocal i) e Refuses fun _ e' =>
      e' = e ∧ (i : Int) < e.method.locals.toInt := by
  unfold Emit.fixedLocal
  rw [ends_bind, ends_get]
  by_cases hi : e.method.locals.toInt ≤ i
  · rw [if_pos hi]
    exact ⟨_, rfl⟩
  · rw [if_neg hi]
    exact ⟨rfl, Int.not_le.1 hi⟩

/-! ## Operations on pending values -/

theorem pushObject_spec (hr : e.Ready) {v : ValueId} (hv : e.types[v]? = some .object) :
    Ends (Emit.push (.object v)) e E fun _ e' => Continues e e' :=
  push_spec hr (Entry.isObject_object hv).typed

/-- The call of a routine whose result becomes an operand. -/
theorem pushCall_spec (hr : e.Ready) (name : String) (r : Routine) {args : List ValueId}
    (hargs : Operands e.types args r.signature.params) (hresult : r.signature.result = .object) :
    Ends (do Emit.push (.object (← Emit.callHelper (.ofRoutine name r) args))) e E fun _ e' =>
      Continues e e' := by
  refine (callHelper_spec hr name r hargs).bind fun v e₁ ⟨h₁, hv⟩ => ?_
  rw [hresult] at hv
  exact (pushObject_spec (h₁.ready hr) (hv (by decide))).imp fun _ _ h₂ =>
    (h₁.continues hr).trans h₂

theorem pushAddInt_spec (hr : e.Ready) {x y : ValueId} (hx : e.types[x]? = some .int)
    (hy : e.types[y]? = some .int) :
    Ends (do Emit.push (.int (← Emit.build (.addInt x y)))) e E fun _ e' => Continues e e' := by
  refine (addInt_spec hr hx hy).bind fun v e₁ ⟨h₁, hv⟩ => ?_
  exact (push_spec (h₁.ready hr) (Entry.typed_int hv)).imp fun _ _ h₂ => (h₁.continues hr).trans h₂

/-- The call of a routine that gives a constant. -/
theorem pushConstant_spec (hr : e.Ready) (name : String) (c : Constant) (i : Nat) :
    Ends (do
      let n ← Emit.const (.ofNat i)
      Emit.push (.object (← Emit.callHelper (.ofRoutine name (.constant c)) [paramFrame, n]))) e E
        fun _ e' => Continues e e' := by
  refine (const_spec hr (.ofNat i)).bind fun n e₁ ⟨h₁, hn⟩ => ?_
  have hr₁ := h₁.ready hr
  exact (pushCall_spec hr₁ name (.constant c) (.cons hr₁.params.2.2 (.cons hn .nil)) rfl).imp
    fun _ _ h₂ => (h₁.continues hr).trans h₂

/-- The call of a routine on numbers or objects whose result is a number. -/
theorem pushIntCall_spec (hr : e.Ready) (name : String) (r : Routine) {args : List ValueId}
    (hargs : Operands e.types args r.signature.params) (hresult : r.signature.result = .int) :
    Ends (do Emit.push (.int (← Emit.callHelper (.ofRoutine name r) args))) e E fun _ e' =>
      Continues e e' := by
  refine (callHelper_spec hr name r hargs).bind fun v e₁ ⟨h₁, hv⟩ => ?_
  rw [hresult] at hv
  exact (push_spec (h₁.ready hr) (Entry.typed_int (hv (by decide)))).imp fun _ _ h₂ =>
    (h₁.continues hr).trans h₂

theorem stepInt_spec (hr : e.Ready) {x : ValueId} (hx : e.types[x]? = some .int) (n : Int32) :
    Ends (do
      let one ← Emit.const n
      Emit.push (.int (← Emit.build (.addInt x one)))) e E fun _ e' => Continues e e' := by
  refine (const_spec hr n).bind fun one e₁ ⟨h₁, hone⟩ => ?_
  exact (pushAddInt_spec (h₁.ready hr) (h₁.grows.getElem? hx) hone).imp fun _ _ h₂ =>
    (h₁.continues hr).trans h₂

theorem boxCall_spec (hr : e.Ready) (name : String) (r : Unary) {x : Entry} (hx : x.Typed e.types) :
    Ends (do
      let x ← Emit.box x
      Emit.push (.object (← Emit.callHelper (.ofRoutine name (.unary r)) [x.value]))) e E
        fun _ e' => Continues e e' := by
  refine (box_spec hr hx).bind fun y e₁ ⟨h₁, hy⟩ => ?_
  exact (pushCall_spec (h₁.ready hr) name (.unary r) (.cons hy.2 .nil) rfl).imp fun _ _ h₂ =>
    (h₁.continues hr).trans h₂

theorem unary_spec (hr : e.Ready) (name : String) (r : Unary) :
    Ends (Emit.unary (.ofRoutine name (.unary r)) r) e E fun _ e' => Continues e e' := by
  refine (pop_spec hr).bind fun x e₁ ⟨h₁, hx⟩ => ?_
  have hbox := (boxCall_spec (E := E) h₁.ready name r hx).imp fun _ _ h₂ => h₁.trans h₂
  rcases hx with hx | hx
  · rw [hx.1]
    cases r <;> exact hbox
  · rw [hx.1]
    cases r with
    | convertI => exact (push_spec h₁.ready (.inr hx)).imp fun _ _ h₂ => h₁.trans h₂
    | incrementI => exact (stepInt_spec h₁.ready hx.2 1).imp fun _ _ h₂ => h₁.trans h₂
    | decrementI => exact (stepInt_spec h₁.ready hx.2 (-1)).imp fun _ _ h₂ => h₁.trans h₂
    | _ => exact hbox

theorem binaryBoxed_spec (hr : e.Ready) (name : String) (r : Binary) {x y : Entry}
    (hx : x.Typed e.types) (hy : y.Typed e.types) :
    Ends (Emit.binaryBoxed (.ofRoutine name (.binary r)) x y) e E fun _ e' => Continues e e' := by
  refine (box_spec hr hx).bind fun x e₁ ⟨h₁, hx⟩ => ?_
  have hr₁ := h₁.ready hr
  refine (box_spec hr₁ (hy.grow h₁.grows)).bind fun y e₂ ⟨h₂, hy⟩ => ?_
  exact (pushCall_spec (h₂.ready hr₁) name (.binary r)
    (.cons (hx.grow h₂.grows).2 (.cons hy.2 .nil)) rfl).imp fun _ _ h₃ =>
      ((h₁.trans h₂).continues hr).trans h₃

theorem bitAnd_spec (hr : e.Ready) (name : String) {x y : Entry}
    (hx : x.Typed e.types) (hy : y.Typed e.types) :
    Ends (Emit.bitAnd (.ofRoutine name (.binary .bitAnd)) x y) e E fun _ e' => Continues e e' := by
  unfold Emit.bitAnd
  rcases hx with hx | hx <;> rcases hy with hy | hy <;> rw [hx.1, hy.1]
  · exact pushCall_spec hr name (.binary .bitAnd) (.cons hx.2 (.cons hy.2 .nil)) rfl
  · exact pushIntCall_spec hr _ .bitAndMixed (.cons hx.2 (.cons hy.2 .nil)) rfl
  · exact pushIntCall_spec hr _ .bitAndMixed (.cons hy.2 (.cons hx.2 .nil)) rfl
  · exact pushIntCall_spec hr _ .bitAndInts (.cons hx.2 (.cons hy.2 .nil)) rfl

theorem shift_spec (hr : e.Ready) (name : String) (r : Binary) (s : Shift) {x y : Entry}
    (hx : x.Typed e.types) (hy : y.Typed e.types) :
    Ends (Emit.shift (.ofRoutine name (.binary r)) s x y) e E fun _ e' => Continues e e' := by
  unfold Emit.shift
  have hboxed := binaryBoxed_spec (E := E) hr name r hx hy
  rcases hx with hx | hx <;> rw [hx.1]
  · exact hboxed
  · refine (box_spec hr hy).bind fun y e₁ ⟨h₁, hy⟩ => ?_
    have hargs : Operands e₁.types [x.value, y.value] [.int, .object] :=
      .cons (h₁.grows.getElem? hx.2) (.cons hy.2 .nil)
    cases s <;> exact (pushCall_spec (h₁.ready hr) _ (.shift _) hargs rfl).imp fun _ _ h₂ =>
      (h₁.continues hr).trans h₂

theorem binary_spec (hr : e.Ready) (name : String) (r : Binary) :
    Ends (Emit.binary (.ofRoutine name (.binary r)) r) e E fun _ e' => Continues e e' := by
  refine (pop_spec hr).bind fun y e₁ ⟨h₁, hy⟩ => ?_
  refine (pop_spec h₁.ready).bind fun x e₂ ⟨h₂, hx⟩ => ?_
  have hy := hy.grow h₂.grows
  have h₁₂ := h₁.trans h₂
  have hboxed := (binaryBoxed_spec (E := E) h₂.ready name r hx hy).imp fun _ _ h => h₁₂.trans h
  cases r with
  | bitAnd => exact (bitAnd_spec h₂.ready name hx hy).imp fun _ _ h => h₁₂.trans h
  | lShift | rShift | uRShift =>
    exact (shift_spec h₂.ready name _ _ hx hy).imp fun _ _ h => h₁₂.trans h
  | addI =>
    rcases hx with hx | hx <;> rcases hy with hy | hy <;> simp only [hx.1, hy.1]
    case inr.inr => exact (pushAddInt_spec h₂.ready hx.2 hy.2).imp fun _ _ h => h₁₂.trans h
    all_goals exact hboxed
  | _ => exact hboxed

theorem pushConst_spec (hr : e.Ready) (n : Int32) :
    Ends (do Emit.push (.int (← Emit.const n))) e E fun _ e' => Continues e e' := by
  refine (const_spec hr n).bind fun v e₁ ⟨h₁, hv⟩ => ?_
  exact (push_spec (h₁.ready hr) (Entry.typed_int hv)).imp fun _ _ h₂ => (h₁.continues hr).trans h₂

theorem releasePopped_spec (hr : e.Ready) :
    Ends (do Emit.release (← Emit.pop)) e E fun _ e' => Continues e e' := by
  refine (pop_spec hr).bind fun x e₁ ⟨h₁, hx⟩ => ?_
  exact (release_spec h₁.ready hx).imp fun _ _ h₂ => h₁.trans (h₂.continues h₁.ready)

theorem dup_spec (hr : e.Ready) :
    Ends (do
      let x ← Emit.peek
      Emit.retain x
      Emit.push x) e E fun _ e' => Continues e e' := by
  refine (peek_spec hr).bind fun x e₁ ⟨h₁, hx⟩ => ?_
  refine (retain_spec h₁.ready hx).bind fun _ e₂ h₂ => ?_
  have h₁₂ := h₁.trans (h₂.continues h₁.ready)
  exact (push_spec h₁₂.ready (hx.grow h₂.grows)).imp fun _ _ h₃ => h₁₂.trans h₃

theorem swap_spec (hr : e.Ready) :
    Ends (do
      let b ← Emit.pop
      let a ← Emit.pop
      Emit.push b
      Emit.push a) e E fun _ e' => Continues e e' := by
  refine (pop_spec hr).bind fun b e₁ ⟨h₁, hb⟩ => ?_
  refine (pop_spec h₁.ready).bind fun a e₂ ⟨h₂, ha⟩ => ?_
  refine (push_spec h₂.ready (hb.grow h₂.grows)).bind fun _ e₃ h₃ => ?_
  exact (push_spec h₃.ready (ha.grow h₃.grows)).imp fun _ _ h₄ =>
    ((h₁.trans h₂).trans h₃).trans h₄

theorem pushLocal_spec (hr : e.Ready) {i : Nat} (hi : i < e.locals.size) :
    Ends (do Emit.push (← Emit.getLocal i)) e E fun _ e' => Continues e e' := by
  refine (getLocal_spec hr hi).bind fun x e₁ ⟨h₁, hx⟩ => ?_
  exact (push_spec h₁.ready hx.typed).imp fun _ _ h₂ => h₁.trans h₂

theorem popBoxed_spec (hr : e.Ready) :
    Ends (do Emit.box (← Emit.pop)) e E fun x e' => Continues e e' ∧ x.IsObject e'.types := by
  refine (pop_spec hr).bind fun x e₁ ⟨h₁, hx⟩ => ?_
  exact (box_spec h₁.ready hx).imp fun y _ ⟨h₂, hy⟩ => ⟨h₁.trans (h₂.continues h₁.ready), hy⟩

theorem Continues.lt_size (h : Continues e e') (hr : e.Ready) {i : Nat} (hi : i < e.locals.size) :
    i < e'.locals.size := by
  rwa [h.size_locals hr]

theorem popLocal_spec (hr : e.Ready) {i : Nat} (hi : i < e.locals.size) :
    Ends (do Emit.setLocal i (← Emit.box (← Emit.pop))) e E fun _ e' => Continues e e' := by
  refine (pop_spec hr).bind fun x e₁ ⟨h₁, hx⟩ => ?_
  refine (box_spec h₁.ready hx).bind fun y e₂ ⟨h₂, hy⟩ => ?_
  have h₁₂ := h₁.trans (h₂.continues h₁.ready)
  exact (setLocal_spec h₁₂.ready (h₁₂.lt_size hr hi) hy).imp fun _ _ h₃ => h₁₂.trans h₃

/-- Setting a local to the result of a routine. -/
theorem setLocalCall_spec (hr : e.Ready) {i : Nat} (hi : i < e.locals.size) (name : String)
    (r : Routine) {args : List ValueId} (hargs : Operands e.types args r.signature.params)
    (hresult : r.signature.result = .object) :
    Ends (do Emit.setLocal i (.object (← Emit.callHelper (.ofRoutine name r) args))) e E
      fun _ e' => Continues e e' := by
  refine (callHelper_spec hr name r hargs).bind fun v e₁ ⟨h₁, hv⟩ => ?_
  rw [hresult] at hv
  have hc := h₁.continues hr
  exact (setLocal_spec hc.ready (hc.lt_size hr hi) (Entry.isObject_object (hv (by decide)))).imp
    fun _ _ h₂ => hc.trans h₂

theorem stepLocal_spec (hr : e.Ready) {i : Nat} (hi : i < e.locals.size) (r : Unary) :
    Ends (do
      let x ← Emit.getLocal i
      Emit.setLocal i (.object
        (← Emit.callHelper (Emit.helperOf r.opcode (.unary r)) [x.value]))) e E
          fun _ e' => Continues e e' := by
  refine (getLocal_spec hr hi).bind fun x e₁ ⟨h₁, hx⟩ => ?_
  exact (setLocalCall_spec h₁.ready (h₁.lt_size hr hi) _ (.unary r) (.cons hx.2 .nil) rfl).imp
    fun _ _ h₂ => h₁.trans h₂

/-! ## Instructions that see the frame -/

theorem Issues.synced (h : Issues e e') (hsync : e.Synced) : e'.Synced :=
  ⟨by rw [h.operands]; exact hsync.operands, fun s hs => hsync.clean s (by rwa [h.locals] at hs)⟩

/-- The call of a routine on the frame, with everything in its place. -/
theorem frameCall_spec (hr : e.Ready) (hsync : e.Synced) (name : String) (r : Routine)
    {args : List ValueId} (hargs : Operands e.types args r.signature.params) :
    Ends (Emit.callHelper (.ofRoutine name r) args) e E fun _ e' => Continues e e' ∧ e'.Synced :=
  (callHelper_spec hr name r hargs).imp fun _ _ h => ⟨h.1.continues hr, h.1.synced hsync⟩

theorem indexed_spec (hr : e.Ready) (name : String) (a : IndexedAction) {k : Immediate.Kind}
    (hk : k ≠ .none) :
    Ends (Emit.indexed (.ofRoutine name (.indexed a)) k pos) e Refuses fun next e' =>
      (Continues e e' ∧ e'.Synced) ∧
        ∃ i, k.reader e.method ⟨e.method.bytes, pos⟩ = .ok i ⟨e.method.bytes, next⟩ := by
  refine (readImmediate_spec hk).bind fun ⟨i, next⟩ e₀ ⟨he, hread⟩ => ?_
  subst e₀
  refine (syncAll_spec hr).bind fun _ e₁ ⟨h₁, hsync⟩ => ?_
  refine (const_spec h₁.ready (.ofNat i)).bind fun n e₂ ⟨h₂, hn⟩ => ?_
  have hr₂ := h₂.ready h₁.ready
  refine (frameCall_spec hr₂ (h₂.synced hsync) name (.indexed a)
    (.cons hr₂.params.2.2 (.cons hn .nil))).bind fun _ e₃ ⟨h₃, hsync₃⟩ => ?_
  exact ⟨⟨(h₁.trans (h₂.continues h₁.ready)).trans h₃, hsync₃⟩, i, hread⟩

theorem pair_spec (hr : e.Ready) (name : String) (a : PairAction)
    {ks : Immediate.Kind × Immediate.Kind} (hk : ks.1 ≠ .none ∧ ks.2 ≠ .none) :
    Ends (Emit.pair (.ofRoutine name (.pair a)) ks pos) e Refuses fun r e' =>
      (Continues e e' ∧ e'.Synced) ∧ ∃ mid,
        ks.1.reader e.method ⟨e.method.bytes, pos⟩ = .ok r.1 ⟨e.method.bytes, mid⟩ ∧
        ks.2.reader e.method ⟨e.method.bytes, mid⟩ = .ok r.2.1 ⟨e.method.bytes, r.2.2⟩ := by
  refine (readImmediate_spec hk.1).bind fun ⟨i, mid⟩ e₀ ⟨he, hread⟩ => ?_
  subst e₀
  refine (readImmediate_spec hk.2).bind fun ⟨j, next⟩ e₀ ⟨he, hread'⟩ => ?_
  subst e₀
  refine (syncAll_spec hr).bind fun _ e₁ ⟨h₁, hsync⟩ => ?_
  refine (const_spec h₁.ready (.ofNat i)).bind fun m e₂ ⟨h₂, hm⟩ => ?_
  have hr₂ := h₂.ready h₁.ready
  refine (const_spec hr₂ (.ofNat j)).bind fun n e₃ ⟨h₃, hn⟩ => ?_
  have hr₃ := h₃.ready hr₂
  refine (frameCall_spec hr₃ ((h₂.trans h₃).synced hsync) name (.pair a)
    (.cons hr₃.params.2.2 (.cons (h₃.grows.getElem? hm) (.cons hn .nil)))).bind
      fun _ e₄ ⟨h₄, hsync₄⟩ => ?_
  exact ⟨⟨(h₁.trans ((h₂.trans h₃).continues h₁.ready)).trans h₄, hsync₄⟩, mid, hread, hread'⟩

theorem returnVoid_spec (hr : e.Ready) (hl : Laid p e) :
    Ends (do
      Emit.syncAll
      Emit.resetLocals
      Emit.build (.terminate .retVoid)) e E fun _ e' => Stops p e e' := by
  refine (syncAll_spec hr).bind fun _ e₁ ⟨h₁, hsync⟩ => ?_
  refine (resetLocals_spec h₁.ready hsync).bind fun _ e₂ ⟨h₂, hsync⟩ => ?_
  have h := (h₁.trans h₂).proceeds hr hl
  exact (terminate_spec h.ready h.laid hsync (t := .retVoid) trivial).imp fun _ _ h₃ =>
    h.stops h₃

theorem returnValue_spec (hr : e.Ready) (hl : Laid p e) :
    Ends (do
      let x ← Emit.box (← Emit.pop)
      Emit.syncAll
      Emit.resetLocals
      Emit.build (.terminate (.ret x.value))) e E fun _ e' => Stops p e e' := by
  refine (pop_spec hr).bind fun x e₁ ⟨h₁, hx⟩ => ?_
  refine (box_spec h₁.ready hx).bind fun x e₂ ⟨h₂, hx⟩ => ?_
  have h₁₂ := h₁.trans (h₂.continues h₁.ready)
  refine (syncAll_spec h₁₂.ready).bind fun _ e₃ ⟨h₃, hsync⟩ => ?_
  refine (resetLocals_spec h₃.ready hsync).bind fun _ e₄ ⟨h₄, hsync⟩ => ?_
  have h₃₄ := h₃.trans h₄
  have h := (h₁₂.trans h₃₄).proceeds hr hl
  have hterm : Term.Sound e₄.types e₄.function.blocks.size (.ret x.value) :=
    h₃₄.grows.getElem? hx.2
  exact (terminate_spec h.ready h.laid hsync hterm).imp fun _ _ h₅ => h.stops h₅

theorem throw_spec (hr : e.Ready) (hl : Laid p e) :
    Ends (do
      let x ← Emit.box (← Emit.pop)
      Emit.syncAll
      Emit.resetLocals
      let _ ← Emit.callHelper Registry.throwValue [x.value]
      Emit.build (.terminate .unreachable)) e E fun _ e' => Stops p e e' := by
  refine (pop_spec hr).bind fun x e₁ ⟨h₁, hx⟩ => ?_
  refine (box_spec h₁.ready hx).bind fun x e₂ ⟨h₂, hx⟩ => ?_
  have h₁₂ := h₁.trans (h₂.continues h₁.ready)
  refine (syncAll_spec h₁₂.ready).bind fun _ e₃ ⟨h₃, hsync⟩ => ?_
  refine (resetLocals_spec h₃.ready hsync).bind fun _ e₄ ⟨h₄, hsync⟩ => ?_
  have h₃₄ := h₃.trans h₄
  refine (frameCall_spec h₄.ready hsync _ (.effect .throw)
    (.cons (h₃₄.grows.getElem? hx.2) .nil)).bind fun _ e₅ ⟨h₅, hsync⟩ => ?_
  have h := ((h₁₂.trans h₃₄).trans h₅).proceeds hr hl
  exact (terminate_spec h.ready h.laid hsync (t := .unreachable) trivial).imp fun _ _ h₆ =>
    h.stops h₆

theorem frame_spec (hr : e.Ready) (name : String) (a : FrameAction) :
    Ends (do
      Emit.syncAll
      let _ ← Emit.callHelper (.ofRoutine name (.frame a)) [paramFrame]) e E fun _ e' =>
        Continues e e' := by
  refine (syncAll_spec hr).bind fun _ e₁ ⟨h₁, hsync⟩ => ?_
  exact (frameCall_spec h₁.ready hsync name (.frame a) (.cons h₁.ready.params.2.2 .nil)).bind
    fun _ _ ⟨h₂, _⟩ => h₁.trans h₂

/-- A routine that may throw finds everything in its place. -/
theorem syncIf_bind (hr : e.Ready) (c : Bool) {x : Emit α} {Q : α → Emitter → Prop}
    (hx : ∀ e', Continues e e' → Ends x e' E Q) :
    Ends (do
      if c then Emit.syncAll
      x) e E Q := by
  cases c with
  | true => exact (syncAll_spec hr).bind fun _ e₁ ⟨h₁, _⟩ => hx e₁ h₁
  | false => exact hx e ((Issues.refl e).continues hr)

/-! ## Branches -/

/-- The targets of a branch whose distance is read at a position, and the blocks that start there. -/
def Leads (pos next : Nat) (e : Emitter) : Prop :=
  ∃ d, Cursor.s24 ⟨e.method.bytes, pos⟩ = .ok d ⟨e.method.bytes, next⟩ ∧
    (0 ≤ next + d ∧ next + d ≤ e.method.bytes.size) ∧ (∃ id, e.blocks.get? next = some id) ∧
      ∃ id, e.blocks.get? (next + d) = some id

theorem Leads.extend {next : Nat} (h : Leads pos next e) (hext : Extends p e e') :
    Leads pos next e' := by
  obtain ⟨d, hread, hrange, ⟨id, hid⟩, id', hid'⟩ := h
  rw [← hext.method] at hread hrange
  exact ⟨d, hread, hrange, ⟨id, hext.map _ _ hid⟩, id', hext.map _ _ hid'⟩

/-- Reading the distance of a branch and making the blocks to which it leads. -/
theorem branch_bind (hr : e.Ready) (hl : Laid p e) (hp : p ≤ pos) (hpos : pos ≤ e.method.bytes.size)
    {k : Int × Nat → BlockId → BlockId → Emit α} {Q : α → Emitter → Prop}
    (hk : ∀ d next target onward e', Proceeds p e e' → Leads pos next e' →
      Cursor.s24 ⟨e.method.bytes, pos⟩ = .ok d ⟨e.method.bytes, next⟩ →
      Target e'.function.blocks.size target → Target e'.function.blocks.size onward →
      Ends (k (d, next) target onward) e' Refuses Q) :
    Ends (do
      let r ← Emit.fetch pos Cursor.s24
      let target ← Emit.branchTarget r.2 r.1
      let onward ← Emit.blockAt r.2
      k r target onward) e Refuses Q := by
  refine (fetch_spec Cursor.advances_s24).bind fun ⟨d, next⟩ e₀ ⟨he, hread⟩ => ?_
  subst e₀
  obtain ⟨-, hnext, hlast⟩ := Cursor.advances_s24 _ _ _ hread
  have hlast := hlast hpos
  refine (branchTarget_spec hr hl (Nat.le_trans hp hnext) d).bind
    fun target e₁ ⟨h₁, htarget, hrange⟩ => ?_
  rw [← h₁.extended.method] at hlast
  refine (blockAt_spec h₁.ready h₁.laid (Int.ofNat_le.2 (Nat.le_trans hp hnext))
    (Int.ofNat_le.2 hlast)).bind fun onward e₂ ⟨h₂, honward⟩ => ?_
  have htarget := h₂.extended.map _ _ htarget
  have h₁₂ := h₁.trans h₂
  have hleads : Leads pos next e₂ := by
    rw [← h₁₂.extended.method] at hread hrange
    exact ⟨d, hread, hrange, ⟨onward, honward⟩, target, htarget⟩
  exact hk d next target onward e₂ h₁₂ hleads hread (h₂.ready.targets _ _ htarget)
    (h₂.ready.targets _ _ honward)

theorem conditional_spec (hr : e.Ready) (hl : Laid p e) (hp : p ≤ pos)
    (hpos : pos ≤ e.method.bytes.size) {c : ValueId} (hc : e.types[c]? = some .bool) :
    Ends (Emit.conditional pos c) e Refuses fun next e' => Stops p e e' ∧ Leads pos next e' := by
  refine branch_bind hr hl hp hpos fun d next target onward e₁ h₁ hleads hread htarget honward => ?_
  refine (syncAll_spec h₁.ready).bind fun _ e₂ ⟨h₂, hsync⟩ => ?_
  have h₁₂ := h₁.continues h₂
  have hext : Extends p e₁ e₂ := h₂.emits.extends h₁.ready.isOpen
  have hterm : Term.Sound e₂.types e₂.function.blocks.size (.condBr c target onward) :=
    ⟨h₁₂.extended.grows.getElem? hc, htarget.mono hext.size_le, honward.mono hext.size_le⟩
  refine (terminate_spec h₁₂.ready h₁₂.laid hsync hterm).bind fun _ e₃ h₃ => ?_
  exact ⟨h₁₂.stops h₃, (hleads.extend hext).extend h₃.extended⟩

theorem test_spec (hr : e.Ready) (hl : Laid p e) (hp : p ≤ pos) (hpos : pos ≤ e.method.bytes.size)
    (name : String) (t : Test) :
    Ends (do
      let x ← Emit.box (← Emit.pop)
      Emit.conditional pos (← Emit.callHelper (.ofRoutine name (.test t)) [x.value])) e Refuses
        fun next e' => Stops p e e' ∧ Leads pos next e' := by
  refine (pop_spec hr).bind fun x e₁ ⟨h₁, hx⟩ => ?_
  refine (box_spec h₁.ready hx).bind fun x e₂ ⟨h₂, hx⟩ => ?_
  have hr₂ := h₂.ready h₁.ready
  refine (callHelper_spec hr₂ name (.test t) (.cons hx.2 .nil)).bind fun c e₃ ⟨h₃, hc⟩ => ?_
  have h := (h₁.trans ((h₂.trans h₃).continues h₁.ready)).proceeds hr hl
  rw [← h.extended.method] at hpos
  exact (conditional_spec h.ready h.laid hp hpos (hc (by simp [Routine.signature]))).imp fun _ _ ⟨h₄, hleads⟩ =>
    ⟨h.stops h₄, hleads⟩

theorem compare_spec (hr : e.Ready) (hl : Laid p e) (hp : p ≤ pos)
    (hpos : pos ≤ e.method.bytes.size) (name : String) (c : Comparison) :
    Ends (do
      let b ← Emit.pop
      let a ← Emit.box (← Emit.pop)
      let b ← Emit.box b
      Emit.conditional pos (← Emit.callHelper (.ofRoutine name (.compare c)) [a.value, b.value])) e
        Refuses fun next e' => Stops p e e' ∧ Leads pos next e' := by
  refine (pop_spec hr).bind fun b e₁ ⟨h₁, hb⟩ => ?_
  refine (pop_spec h₁.ready).bind fun a e₂ ⟨h₂, ha⟩ => ?_
  have h₁₂ := h₁.trans h₂
  refine (box_spec h₂.ready ha).bind fun a e₃ ⟨h₃, ha⟩ => ?_
  have hr₃ := h₃.ready h₂.ready
  refine (box_spec hr₃ (hb.grow (h₂.grows.trans h₃.grows))).bind fun b e₄ ⟨h₄, hb⟩ => ?_
  have hr₄ := h₄.ready hr₃
  refine (callHelper_spec hr₄ name (.compare c)
    (.cons (ha.grow h₄.grows).2 (.cons hb.2 .nil))).bind fun v e₅ ⟨h₅, hv⟩ => ?_
  have h := (h₁₂.trans ((h₃.trans (h₄.trans h₅)).continues h₂.ready)).proceeds hr hl
  rw [← h.extended.method] at hpos
  exact (conditional_spec h.ready h.laid hp hpos (hv (by simp [Routine.signature]))).imp fun _ _ ⟨h₆, hleads⟩ =>
    ⟨h.stops h₆, hleads⟩

theorem jump_spec (hr : e.Ready) (hl : Laid p e) (hp : p ≤ pos) (hpos : pos ≤ e.method.bytes.size)
    (name : String) :
    Ends (do
      let r ← Emit.fetch pos Cursor.s24
      let target ← Emit.branchTarget r.2 r.1
      let _ ← Emit.blockAt r.2
      Emit.syncAll
      let n ← Emit.const (.ofInt r.1)
      let _ ← Emit.callHelper (.ofRoutine name (.indexed .jump)) [paramFrame, n]
      Emit.build (.terminate (.br target))
      pure r.2) e Refuses fun next e' => Stops p e e' ∧ Leads pos next e' := by
  refine branch_bind hr hl hp hpos fun d next target onward e₁ h₁ hleads hread htarget honward => ?_
  refine (syncAll_spec h₁.ready).bind fun _ e₂ ⟨h₂, hsync⟩ => ?_
  refine (const_spec h₂.ready (.ofInt d)).bind fun n e₃ ⟨h₃, hn⟩ => ?_
  have hr₃ := h₃.ready h₂.ready
  refine (frameCall_spec hr₃ (h₃.synced hsync) name (.indexed .jump)
    (.cons hr₃.params.2.2 (.cons hn .nil))).bind fun _ e₄ ⟨h₄, hsync⟩ => ?_
  have h₂₄ := (h₂.trans (h₃.continues h₂.ready)).trans h₄
  have h₁₄ := h₁.continues h₂₄
  have hext : Extends p e₁ e₄ := h₂₄.emits.extends h₁.ready.isOpen
  have hterm : Term.Sound e₄.types e₄.function.blocks.size (.br target) :=
    htarget.mono hext.size_le
  refine (terminate_spec h₁₄.ready h₁₄.laid hsync hterm).bind fun _ e₅ h₅ => ?_
  exact ⟨h₁₄.stops h₅, (hleads.extend hext).extend h₅.extended⟩

/-! ## Instructions -/

/-- What it means that the instruction with the action `a`, whose immediates are at `pos`, was
translated up to `next`. -/
structure Translates (p pos : Nat) (a : Action) (e : Emitter) (next : Nat) (e' : Emitter) : Prop where
  supported : a ≠ .unsupported ∧ a ≠ .lookupSwitch
  reads : a.reader e.method ⟨e.method.bytes, pos⟩ = .ok () ⟨e.method.bytes, next⟩
  fixed : ∀ i, a.fixed? = some i → (i : Int) < e.method.locals.toInt
  proceeds : a.ends = false → Proceeds p e e'
  stops : a.ends = true → Stops p e e'
  leads : a.hasTarget = true → Leads pos next e'

theorem Continues.translates (h : Continues e e') (hr : e.Ready) (hl : Laid p e) {a : Action}
    {next : Nat}
    (hreads : a.reader e.method ⟨e.method.bytes, pos⟩ = .ok () ⟨e.method.bytes, next⟩)
    (ha : a.plain = true) : Translates p pos a e next e' := by
  obtain ⟨hends, hfixed, hsupported⟩ := Action.of_plain ha
  refine ⟨hsupported, hreads, fun i hi => ?_, fun _ => h.proceeds hr hl, fun hstops => ?_,
    fun htarget => ?_⟩
  · rw [hfixed] at hi
    cases hi
  · rw [hends] at hstops
    cases hstops
  · rw [Action.ends_of_hasTarget htarget] at hends
    cases hends

/-- A plain instruction after whose immediates the code goes on. -/
theorem translates_of_continues (hr : e.Ready) (hl : Laid p e) {a : Action} {next : Nat}
    (hreads : a.reader e.method ⟨e.method.bytes, pos⟩ = .ok () ⟨e.method.bytes, next⟩)
    (ha : a.plain = true) {x : Emit Unit} (hx : Ends x e Refuses fun _ e' => Continues e e') :
    Ends (do x; pure next) e Refuses fun next e' => Translates p pos a e next e' :=
  hx.bind fun _ _ h => h.translates hr hl hreads ha

/-- An instruction that implies a local. -/
theorem translates_of_fixed (hr : e.Ready) (hl : Laid p e) {i : Nat}
    (hi : (i : Int) < e.method.locals.toInt) {a : Action} (ha : a = .getFixed i ∨ a = .setFixed i)
    {x : Emit Unit} (hx : Ends x e Refuses fun _ e' => Continues e e') :
    Ends (do x; pure pos) e Refuses fun next e' => Translates p pos a e next e' := by
  refine hx.bind fun _ e' h => ?_
  rcases ha with rfl | rfl
  all_goals
    refine ⟨by simp, rfl, fun j hj => ?_, fun _ => h.proceeds hr hl, fun h => ?_, fun h => ?_⟩
    · cases hj
      exact hi
    · cases h
    · cases h

/-- An instruction that ends its block and has no immediates. -/
theorem translates_of_stops {a : Action} (ha : a.ends = true ∧ a.hasTarget = false) {x : Emit Unit}
    (hx : Ends x e Refuses fun _ e' => Stops p e e') :
    Ends (do x; pure pos) e Refuses fun next e' => Translates p pos a e next e' := by
  refine hx.bind fun _ e' h => ⟨Action.supported_of_ends ha.1, ?_, fun i hi => ?_, fun hends => ?_,
    fun _ => h, fun htarget => ?_⟩
  · rw [Action.reader_of_ends ha.1 ha.2]
    rfl
  · rw [Action.fixed?_of_ends ha.1] at hi
    cases hi
  · rw [ha.1] at hends
    cases hends
  · rw [ha.2] at htarget
    cases htarget

/-- A branch. -/
theorem translates_of_leads {a : Action} (ha : a.hasTarget = true) {x : Emit Nat}
    (hx : Ends x e Refuses fun next e' => Stops p e e' ∧ Leads pos next e') :
    Ends x e Refuses fun next e' => Translates p pos a e next e' := by
  have hends := Action.ends_of_hasTarget ha
  refine hx.imp fun next e' ⟨h, hleads⟩ => ⟨Action.supported_of_ends hends, ?_, fun i hi => ?_,
    fun hnot => ?_, fun _ => h, fun _ => hleads⟩
  · obtain ⟨d, hread, -⟩ := hleads
    rw [h.extended.method] at hread
    rw [Action.reader_of_hasTarget ha]
    exact bind_of_ok hread
  · rw [Action.fixed?_of_ends hends] at hi
    cases hi
  · rw [hends] at hnot
    cases hnot

theorem instruction_spec (hr : e.Ready) (hl : Laid p e) (hp : p ≤ pos)
    (hpos : pos ≤ e.method.bytes.size) (byte : UInt8) :
    Ends (Emit.instruction byte pos) e Refuses fun next e' =>
      Translates p pos (actionOfByte byte) e next e' := by
  dsimp only [Emit.instruction]
  generalize Opcode.nameOfByte byte = name
  generalize actionOfByte byte = a
  have hskip : Ends (pure () : Emit Unit) e Refuses fun _ e' => Continues e e' :=
    (Issues.refl e).continues hr
  cases a with
  | none => exact translates_of_continues (a := .none) hr hl rfl rfl hskip
  | debug =>
    refine (fetch_spec (Cursor.advances_skip .debug)).bind fun ⟨_, next⟩ e₀ ⟨he, hread⟩ => ?_
    subst e₀
    exact translates_of_continues (a := .debug) hr hl hread rfl hskip
  | note =>
    refine (fetch_spec Cursor.advances_u30).bind fun ⟨_, next⟩ e₀ ⟨he, hread⟩ => ?_
    subst e₀
    exact translates_of_continues (a := .note) hr hl (bind_of_ok hread) rfl hskip
  | pushByte =>
    refine (fetch_spec Cursor.advances_byte).bind fun ⟨n, next⟩ e₀ ⟨he, hread⟩ => ?_
    subst e₀
    simpa only [bind_assoc] using translates_of_continues (a := .pushByte) hr hl (bind_of_ok hread)
      rfl (pushConst_spec hr (signExtend8 n))
  | pushShort =>
    refine (fetch_spec Cursor.advances_u30).bind fun ⟨n, next⟩ e₀ ⟨he, hread⟩ => ?_
    subst e₀
    simpa only [bind_assoc] using translates_of_continues (a := .pushShort) hr hl (bind_of_ok hread)
      rfl (pushConst_spec hr (signExtend16 n))
  | pop =>
    simpa only [bind_assoc] using
      translates_of_continues (a := .pop) hr hl rfl rfl (releasePopped_spec hr)
  | dup =>
    simpa only [bind_assoc] using translates_of_continues (a := .dup) hr hl rfl rfl (dup_spec hr)
  | swap =>
    simpa only [bind_assoc] using translates_of_continues (a := .swap) hr hl rfl rfl (swap_spec hr)
  | getLocal =>
    refine (readImmediate_spec (by decide)).bind fun ⟨i, next⟩ e₀ ⟨he, hread⟩ => ?_
    subst e₀
    simpa only [bind_assoc] using translates_of_continues (a := .getLocal) hr hl (bind_of_ok hread)
      rfl (pushLocal_spec hr (lt_size_of_reader hr.toSound hread))
  | getFixed i =>
    refine fixedLocal_spec.bind fun _ e₀ ⟨he, hi⟩ => ?_
    subst e₀
    simpa only [bind_assoc] using translates_of_fixed hr hl hi (.inl rfl)
      (pushLocal_spec hr (lt_size_of_lt_toInt hr.toSound hi))
  | setLocal =>
    refine (readImmediate_spec (by decide)).bind fun ⟨i, next⟩ e₀ ⟨he, hread⟩ => ?_
    subst e₀
    simpa only [bind_assoc] using translates_of_continues (a := .setLocal) hr hl (bind_of_ok hread)
      rfl (popLocal_spec hr (lt_size_of_reader hr.toSound hread))
  | setFixed i =>
    refine fixedLocal_spec.bind fun _ e₀ ⟨he, hi⟩ => ?_
    subst e₀
    simpa only [bind_assoc] using translates_of_fixed hr hl hi (.inr rfl)
      (popLocal_spec hr (lt_size_of_lt_toInt hr.toSound hi))
  | kill =>
    refine (readImmediate_spec (by decide)).bind fun ⟨i, next⟩ e₀ ⟨he, hread⟩ => ?_
    subst e₀
    simpa only [bind_assoc, Emit.helperOf] using translates_of_continues (a := .kill) hr hl (bind_of_ok hread)
      rfl (setLocalCall_spec hr (lt_size_of_reader hr.toSound hread) _ (.supply .pushUndefined)
        (.cons hr.params.2.2 .nil) rfl)
  | stepLocal r =>
    refine (readImmediate_spec (by decide)).bind fun ⟨i, next⟩ e₀ ⟨he, hread⟩ => ?_
    subst e₀
    simpa only [bind_assoc] using translates_of_continues (a := .stepLocal r) hr hl
      (bind_of_ok hread) rfl (stepLocal_spec hr (lt_size_of_reader hr.toSound hread) r)
  | returnVoid =>
    simpa only [bind_assoc] using
      translates_of_stops (a := .returnVoid) ⟨rfl, rfl⟩ (returnVoid_spec hr hl)
  | returnValue =>
    simpa only [bind_assoc] using
      translates_of_stops (a := .returnValue) ⟨rfl, rfl⟩ (returnValue_spec hr hl)
  | throw =>
    simpa only [bind_assoc] using
      translates_of_stops (a := .throw) ⟨rfl, rfl⟩ (throw_spec hr hl)
  | supply s =>
    simpa only [bind_assoc] using translates_of_continues (a := .supply s) hr hl rfl rfl
      (pushCall_spec hr name (.supply s) (.cons hr.params.2.2 .nil) rfl)
  | constant c =>
    refine (readImmediate_spec (by cases c <;> decide)).bind fun ⟨i, next⟩ e₀ ⟨he, hread⟩ => ?_
    subst e₀
    simpa only [bind_assoc] using translates_of_continues (a := .constant c) hr hl (bind_of_ok hread)
      rfl (pushConstant_spec hr name c i)
  | frame a =>
    simpa only [bind_assoc, pure_bind] using
      translates_of_continues (a := .frame a) hr hl rfl rfl (frame_spec hr name a)
  | scopeObject =>
    exact (indexed_spec hr name _ (by decide)).imp fun _ _ ⟨⟨h, _⟩, _, hread⟩ =>
      h.translates hr hl (bind_of_ok hread) rfl
  | named a =>
    exact (indexed_spec hr name a (by simp [Action.immediates])).imp fun _ _ ⟨⟨h, _⟩, _, hread⟩ =>
      h.translates hr hl (bind_of_ok hread) rfl
  | counted a =>
    exact (indexed_spec hr name a (by simp [Action.immediates])).imp fun _ _ ⟨⟨h, _⟩, _, hread⟩ =>
      h.translates hr hl (bind_of_ok hread) rfl
  | namedCounted a =>
    refine (pair_spec hr name a (by simp [Action.immediates])).bind
      fun ⟨i, j, next⟩ e₁ ⟨⟨h, _⟩, mid, hread, hread'⟩ => ?_
    exact h.translates hr hl ((bind_of_ok hread).trans (bind_of_ok hread')) rfl
  | hasNext2 =>
    refine (pair_spec hr name .hasNext2 (by decide)).bind
      fun ⟨i, j, next⟩ e₁ ⟨⟨h₁, hsync⟩, mid, hread, hread'⟩ => ?_
    have hi := h₁.lt_size hr (lt_size_of_reader hr.toSound hread)
    have hj := h₁.lt_size hr (lt_size_of_reader hr.toSound hread')
    refine (invalidateLocal_spec h₁.ready hsync hi).bind fun _ e₂ ⟨h₂, hsync⟩ => ?_
    refine (invalidateLocal_spec h₂.ready hsync (h₂.lt_size h₁.ready hj)).bind fun _ e₃ ⟨h₃, _⟩ => ?_
    exact ((h₁.trans h₂).trans h₃).translates hr hl
      ((bind_of_ok hread).trans (bind_of_ok hread')) rfl
  | unary r =>
    refine syncIf_bind hr _ fun e₁ h₁ => ?_
    exact (unary_spec h₁.ready name r).bind fun _ _ h₂ =>
      (h₁.trans h₂).translates hr hl rfl rfl
  | binary r =>
    refine syncIf_bind hr _ fun e₁ h₁ => ?_
    exact (binary_spec h₁.ready name r).bind fun _ _ h₂ =>
      (h₁.trans h₂).translates hr hl rfl rfl
  | test t =>
    simpa only [bind_assoc] using
      translates_of_leads (a := .test t) rfl (test_spec hr hl hp hpos name t)
  | compare c =>
    simpa only [bind_assoc] using
      translates_of_leads (a := .compare c) rfl (compare_spec hr hl hp hpos name c)
  | jump => exact translates_of_leads (a := .jump) rfl (jump_spec hr hl hp hpos name)
  | lookupSwitch | unsupported =>
    rw [ends_bind, ends_get]
    refine Ends.bind (Q := fun _ e' => e'.Open) (ends_modify.2 hr.isOpen) fun _ e₁ hopen => ?_
    refine (ends_of_ok (Q := fun _ _ => True) (build_terminate hopen _) trivial).bind fun _ _ _ => ?_
    exact ⟨_, rfl⟩

end Compiler

end MethodJit
