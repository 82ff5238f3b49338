import MethodJit.Proofs.Flow

/-!
# Where instructions end

The extent of an instruction is known in three places: skipping goes by its layout, the compiler and the
interpreter by what they do with its immediates. They agree. An instruction that cannot be skipped because
bytes are missing or a number is malformed can be neither compiled nor carried out.
-/

namespace MethodJit

/-- The layout of the instructions with an action. -/
def Action.layout : Action → Layout
  | .debug => .debug
  | .pushByte | .scopeObject => .byte
  | .note | .pushShort | .getLocal | .setLocal | .kill | .stepLocal _ | .constant _ | .named _
  | .counted _ => .number
  | .namedCounted _ | .hasNext2 => .twoNumbers
  | .test _ | .compare _ | .jump => .distance
  | .lookupSwitch => .switch
  | _ => .plain

theorem Opcode.layout_eq {op : Opcode} (h : op.action.convention ≠ .unsupported) :
    op.layout = op.action.layout := by
  cases op <;> first | rfl | exact absurd rfl h

theorem skipInstruction_eq {byte : UInt8} (h : (actionOfByte byte).convention ≠ .unsupported) :
    skipInstruction byte = (actionOfByte byte).layout.skip := by
  unfold skipInstruction actionOfByte at *
  cases hop : Opcode.ofByte? byte with
  | none =>
    rw [hop] at h
    exact absurd rfl h
  | some op =>
    rw [hop] at h
    exact congrArg Layout.skip (Opcode.layout_eq h)

namespace Cursor

variable {m : Method} {c c' : Cursor} {n : Nat}

/-- An index is a number. -/
theorem u30_of_index {table : Table} {size : Int} (h : index table size c = .ok n c') :
    u30 c = .ok n c' := by
  obtain ⟨i, c₁, h₁, h₂⟩ := bind_eq_ok h
  split at h₂
  · cases h₂
    exact h₁
  · cases h₂

theorem u30_of_kind {k : Immediate.Kind} (h : k.reader m c = .ok n c') (hb : k ≠ .byte) :
    u30 c = .ok n c' := by
  cases k with
  | byte => exact absurd rfl hb
  | none => cases h
  | count => exact h
  | name | int | uint | double | string | «local» => exact u30_of_index h

/-- Reading two numbers one after the other. -/
theorem skip_twoNumbers {c₁ : Cursor} {i : Nat} (h₁ : u30 c = .ok i c₁) (h₂ : u30 c₁ = .ok n c') :
    Layout.twoNumbers.skip c = .ok () c' :=
  (bind_of_ok h₁).trans (bind_of_ok h₂)

/-- Immediates that are read and checked are skipped to the same place. -/
theorem skip_of_reader {a : Action} (h : a.reader m c = .ok () c') : a.layout.skip c = .ok () c' := by
  cases a with
  | getLocal | setLocal | kill | stepLocal _ =>
    obtain ⟨i, c₁, h₁, h₂⟩ := bind_eq_ok h
    cases h₂
    exact bind_of_ok (u30_of_kind h₁ nofun)
  | constant c =>
    obtain ⟨i, c₁, h₁, h₂⟩ := bind_eq_ok h
    cases h₂
    cases c <;> exact bind_of_ok (u30_of_kind h₁ nofun)
  | named _ | counted _ =>
    obtain ⟨i, c₁, h₁, h₂⟩ := bind_eq_ok h
    cases h₂
    exact bind_of_ok (u30_of_kind h₁ nofun)
  | namedCounted _ | hasNext2 =>
    obtain ⟨i, c₁, h₁, h₂⟩ := bind_eq_ok h
    obtain ⟨j, c₂, h₃, h₄⟩ := bind_eq_ok h₂
    cases h₄
    exact skip_twoNumbers (u30_of_kind h₁ nofun) (u30_of_kind h₃ nofun)
  | _ => exact h

end Cursor

/-! ## Generating code -/

namespace Compiler

open IR Interpreter

variable {α : Type} {e e' : Emitter} {byte : UInt8} {pos next : Nat}

/-- The action leaves the emitter at work on the same method if it succeeds. -/
def SameMethod (x : Emit α) : Prop :=
  ∀ e, Yields x e fun _ e' => e'.method = e.method

theorem sameMethod_pure (a : α) : SameMethod (pure a) := fun _ => rfl

theorem SameMethod.bind {β : Type} {x : Emit α} {f : α → Emit β} (hx : SameMethod x)
    (hf : ∀ a, SameMethod (f a)) : SameMethod (x >>= f) :=
  fun e => (hx e).bind fun a e₁ h₁ => (hf a e₁).imp fun _ _ h₂ => h₂.trans h₁

theorem sameMethod_build (x : Build α) : SameMethod (Emit.build x) := by
  rintro ⟨builder, method, blocks, offset, operands, locals, log⟩
  unfold Yields Ends Emit.build
  dsimp only
  cases x builder <;> trivial

theorem sameMethod_popReal : SameMethod Emit.popReal :=
  have htop : SameMethod Emit.topIndex :=
    (sameMethod_build _).bind fun _ => (sameMethod_build _).bind fun _ => sameMethod_build _
  htop.bind fun _ => (sameMethod_build _).bind fun _ => sameMethod_build _

theorem sameMethod_pop : SameMethod Emit.pop := by
  intro e
  unfold Emit.pop
  rw [Yields, ends_bind, ends_get]
  cases e.operands with
  | nil => exact (sameMethod_popReal.bind fun _ => sameMethod_pure _) e
  | cons _ _ => rfl

theorem sameMethod_box (x : Entry) : SameMethod (Emit.box x) := by
  unfold Emit.box
  cases x.kind with
  | object => exact sameMethod_pure _
  | int => exact (sameMethod_build _).bind fun _ => sameMethod_pure _
  | none | other _ => exact fun _ => trivial

/-- The immediates of an instruction of a method end at `next`, and they and the target are as they
should be. -/
structure Decodes (m : Method) (a : Action) (pos next : Nat) : Prop where
  readable : Readable m a pos
  reads : a.reader m ⟨m.bytes, pos⟩ = .ok () ⟨m.bytes, next⟩

theorem decodes_of_plain {m : Method} {a : Action} (ha : a.plain = true)
    (h : a.reader m ⟨m.bytes, pos⟩ = .ok () ⟨m.bytes, next⟩) : Decodes m a pos next := by
  obtain ⟨hends, hfixed, hs⟩ := Action.of_plain ha
  refine ⟨⟨hs, ⟨next, h⟩, ?_, ?_⟩, h⟩
  · intro i hi
    rw [hfixed] at hi
    cases hi
  · intro ht
    rw [Action.ends_of_hasTarget ht] at hends
    cases hends

theorem decodes_of_fixed {m : Method} {a : Action} {i : Nat} (hf : a.fixed? = some i)
    (hi : (i : Int) < m.locals.toInt) : Decodes m a pos pos := by
  cases a with
  | getFixed j | setFixed j =>
    cases hf
    refine ⟨⟨⟨nofun, nofun⟩, ⟨pos, rfl⟩, ?_, nofun⟩, rfl⟩
    rintro _ ⟨⟩
    exact hi
  | _ => cases hf

theorem decodes_of_leaving {m : Method} {a : Action} (ha : a.ends = true) (ht : a.hasTarget = false) :
    Decodes m a pos pos := by
  have hreads : a.reader m ⟨m.bytes, pos⟩ = .ok () ⟨m.bytes, pos⟩ := by
    rw [Action.reader_of_ends ha ht]
    rfl
  refine ⟨⟨Action.supported_of_ends ha, ⟨pos, hreads⟩, ?_, ?_⟩, hreads⟩
  · intro i hi
    rw [Action.fixed?_of_ends ha] at hi
    cases hi
  · intro ht'
    rw [ht] at ht'
    cases ht'

theorem decodes_of_target {m : Method} {a : Action} (ha : a.hasTarget = true) {d : Int}
    (hd : Cursor.s24 ⟨m.bytes, pos⟩ = .ok d ⟨m.bytes, next⟩)
    (hrange : 0 ≤ next + d ∧ next + d ≤ m.bytes.size) : Decodes m a pos next := by
  have hreads : a.reader m ⟨m.bytes, pos⟩ = .ok () ⟨m.bytes, next⟩ := by
    rw [Action.reader_of_hasTarget ha]
    exact bind_of_ok hd
  refine ⟨⟨Action.supported_of_ends (Action.ends_of_hasTarget ha), ⟨next, hreads⟩, ?_, ?_⟩, hreads⟩
  · intro i hi
    rw [Action.fixed?_of_ends (Action.ends_of_hasTarget ha)] at hi
    cases hi
  · exact fun _ => ⟨d, next, hd, hrange⟩

theorem fetch_reads {read : Cursor.Read α} (ha : Cursor.Advances read) :
    Yields (Emit.fetch pos read) e fun r e' =>
      e' = e ∧ read ⟨e.method.bytes, pos⟩ = .ok r.1 ⟨e.method.bytes, r.2⟩ :=
  (fetch_spec ha).mono (fun _ _ _ => trivial) fun _ _ h => h

theorem readImmediate_reads {k : Immediate.Kind} (hk : k ≠ .none) :
    Yields (Emit.readImmediate pos k) e fun r e' =>
      e' = e ∧ k.reader e.method ⟨e.method.bytes, pos⟩ = .ok r.1 ⟨e.method.bytes, r.2⟩ :=
  (readImmediate_spec hk).mono (fun _ _ _ => trivial) fun _ _ h => h

theorem fixedLocal_checks (i : Nat) :
    Yields (Emit.fixedLocal i) e fun _ _ => (i : Int) < e.method.locals.toInt := by
  unfold Emit.fixedLocal
  rw [Yields, ends_bind, ends_get]
  split
  · trivial
  · rename_i h
    exact Int.not_le.1 h

/-- A branch that is accepted leads into the code or to its end. -/
theorem branchTarget_checks (next : Nat) (d : Int) :
    Yields (Emit.branchTarget next d) e fun _ _ =>
      0 ≤ next + d ∧ next + d ≤ e.method.bytes.size := by
  unfold Emit.branchTarget
  rw [Yields, ends_bind, ends_get]
  dsimp only
  split
  · trivial
  · rename_i h
    refine (yields_true _ _).imp fun _ _ _ => ?_
    omega

theorem conditional_decodes {a : Action} (ha : a.hasTarget = true) (v : ValueId) :
    Yields (Emit.conditional pos v) e fun next _ => Decodes e.method a pos next := by
  unfold Emit.conditional
  refine (fetch_reads Cursor.advances_s24).bind fun ⟨d, next⟩ e₁ ⟨h₁, hd⟩ => ?_
  subst h₁
  refine (branchTarget_checks next d).bind fun target e₂ hrange => ?_
  exact yields_then fun _ _ => yields_then fun _ _ => yields_then fun _ _ =>
    decodes_of_target ha hd hrange

theorem indexed_decodes {a : Action} (ha : a.plain = true) {h : Helper} {k : Immediate.Kind}
    (hk : k ≠ .none) (heq : a.reader e.method = do let _ ← k.reader e.method) :
    Yields (Emit.indexed h k pos) e fun next _ => Decodes e.method a pos next := by
  refine (readImmediate_reads hk).bind fun ⟨i, next⟩ e₁ ⟨h₁, hi⟩ => ?_
  refine yields_then fun _ _ => yields_then fun _ _ => yields_then fun _ _ => ?_
  exact decodes_of_plain ha (heq ▸ bind_of_ok hi)

theorem pair_decodes {a : Action} (ha : a.plain = true) {h : Helper}
    (ks : Immediate.Kind × Immediate.Kind) (hk : ks.1 ≠ .none ∧ ks.2 ≠ .none)
    (heq : a.reader e.method = do
      let _ ← ks.1.reader e.method
      let _ ← ks.2.reader e.method) :
    Yields (Emit.pair h ks pos) e fun r _ => Decodes e.method a pos r.2.2 := by
  refine (readImmediate_reads hk.1).bind fun ⟨i, mid⟩ e₁ ⟨h₁, hi⟩ => ?_
  subst h₁
  refine (readImmediate_reads hk.2).bind fun ⟨j, next⟩ e₂ ⟨h₂, hj⟩ => ?_
  refine yields_then fun _ _ => yields_then fun _ _ => yields_then fun _ _ => yields_then fun _ _ => ?_
  exact decodes_of_plain ha (heq ▸ (bind_of_ok hi).trans (bind_of_ok hj))

/-- An instruction of which code was generated has been read to its end. -/
theorem instruction_decodes (e : Emitter) (byte : UInt8) (pos : Nat) :
    Yields (Emit.instruction byte pos) e fun next _ =>
      Decodes e.method (actionOfByte byte) pos next := by
  unfold Emit.instruction
  generalize actionOfByte byte = a
  cases a with
  | none => exact decodes_of_plain rfl rfl
  | debug =>
    refine (fetch_reads (Cursor.advances_skip .debug)).bind fun ⟨_, next⟩ _ h => ?_
    exact decodes_of_plain rfl h.2
  | note =>
    refine (fetch_reads Cursor.advances_u30).bind fun ⟨_, next⟩ _ h => ?_
    exact decodes_of_plain rfl (bind_of_ok h.2)
  | pushByte =>
    refine (fetch_reads Cursor.advances_byte).bind fun ⟨_, next⟩ _ h => ?_
    exact yields_then fun _ _ => yields_then fun _ _ => decodes_of_plain rfl (bind_of_ok h.2)
  | pushShort =>
    refine (fetch_reads Cursor.advances_u30).bind fun ⟨_, next⟩ _ h => ?_
    exact yields_then fun _ _ => yields_then fun _ _ => decodes_of_plain rfl (bind_of_ok h.2)
  | pop => exact yields_then fun _ _ => yields_then fun _ _ => decodes_of_plain rfl rfl
  | dup =>
    exact yields_then fun _ _ => yields_then fun _ _ => yields_then fun _ _ => decodes_of_plain rfl rfl
  | swap =>
    exact yields_then fun _ _ => yields_then fun _ _ => yields_then fun _ _ => yields_then fun _ _ =>
      decodes_of_plain rfl rfl
  | getLocal =>
    refine (readImmediate_reads (k := .local) nofun).bind fun ⟨_, next⟩ _ h => ?_
    exact yields_then fun _ _ => yields_then fun _ _ => decodes_of_plain rfl (bind_of_ok h.2)
  | setLocal =>
    refine (readImmediate_reads (k := .local) nofun).bind fun ⟨_, next⟩ _ h => ?_
    exact yields_then fun _ _ => yields_then fun _ _ => yields_then fun _ _ =>
      decodes_of_plain rfl (bind_of_ok h.2)
  | kill =>
    refine (readImmediate_reads (k := .local) nofun).bind fun ⟨_, next⟩ _ h => ?_
    exact yields_then fun _ _ => yields_then fun _ _ => decodes_of_plain rfl (bind_of_ok h.2)
  | stepLocal r =>
    refine (readImmediate_reads (k := .local) nofun).bind fun ⟨_, next⟩ _ h => ?_
    exact yields_then fun _ _ => yields_then fun _ _ => yields_then fun _ _ =>
      decodes_of_plain rfl (bind_of_ok h.2)
  | getFixed i =>
    refine (fixedLocal_checks i).bind fun _ _ h => ?_
    exact yields_then fun _ _ => yields_then fun _ _ => decodes_of_fixed rfl h
  | setFixed i =>
    refine (fixedLocal_checks i).bind fun _ _ h => ?_
    exact yields_then fun _ _ => yields_then fun _ _ => yields_then fun _ _ => decodes_of_fixed rfl h
  | returnVoid =>
    exact yields_then fun _ _ => yields_then fun _ _ => yields_then fun _ _ => decodes_of_leaving rfl rfl
  | returnValue =>
    exact yields_then fun _ _ => yields_then fun _ _ => yields_then fun _ _ => yields_then fun _ _ =>
      yields_then fun _ _ => decodes_of_leaving rfl rfl
  | throw =>
    exact yields_then fun _ _ => yields_then fun _ _ => yields_then fun _ _ => yields_then fun _ _ =>
      yields_then fun _ _ => yields_then fun _ _ => decodes_of_leaving rfl rfl
  | supply s => exact yields_then fun _ _ => yields_then fun _ _ => decodes_of_plain rfl rfl
  | constant c =>
    refine (readImmediate_reads (by cases c <;> nofun)).bind fun ⟨_, next⟩ _ h => ?_
    exact yields_then fun _ _ => yields_then fun _ _ => yields_then fun _ _ =>
      decodes_of_plain rfl (bind_of_ok h.2)
  | frame a => exact yields_then fun _ _ => yields_then fun _ _ => decodes_of_plain rfl rfl
  | scopeObject | named a | counted a => exact indexed_decodes rfl nofun rfl
  | namedCounted a =>
    exact (pair_decodes rfl (.name, .count) ⟨nofun, nofun⟩ rfl).bind fun ⟨_, _, _⟩ _ h => h
  | hasNext2 =>
    refine (pair_decodes (a := .hasNext2) rfl (.local, .local) ⟨nofun, nofun⟩ rfl).bind fun ⟨_, _, _⟩ _ h => ?_
    exact yields_then fun _ _ => yields_then fun _ _ => h
  | unary r =>
    exact yields_ifThen fun _ => yields_then fun _ _ => decodes_of_plain rfl rfl
  | binary r =>
    exact yields_ifThen fun _ => yields_then fun _ _ => decodes_of_plain rfl rfl
  | test t =>
    refine (sameMethod_pop e).bind fun x e₁ h₁ => (sameMethod_box x e₁).bind fun x e₂ h₂ => ?_
    refine (sameMethod_build _ e₂).bind fun v e₃ h₃ => ?_
    rw [← h₃.trans (h₂.trans h₁)]
    exact conditional_decodes rfl v
  | compare c =>
    refine (sameMethod_pop e).bind fun b e₁ h₁ => (sameMethod_pop e₁).bind fun a e₂ h₂ => ?_
    refine (sameMethod_box a e₂).bind fun a e₃ h₃ => (sameMethod_box b e₃).bind fun b e₄ h₄ => ?_
    refine (sameMethod_build _ e₄).bind fun v e₅ h₅ => ?_
    rw [← h₅.trans (h₄.trans (h₃.trans (h₂.trans h₁)))]
    exact conditional_decodes rfl v
  | jump =>
    refine (fetch_reads Cursor.advances_s24).bind fun ⟨d, next⟩ e₁ ⟨h₁, hd⟩ => ?_
    subst h₁
    refine (branchTarget_checks next d).bind fun target e₂ hrange => ?_
    exact yields_then fun _ _ => yields_then fun _ _ => yields_then fun _ _ => yields_then fun _ _ =>
      yields_then fun _ _ => decodes_of_target rfl hd hrange
  | lookupSwitch | unsupported =>
    exact yields_then fun _ _ => yields_then fun _ _ => yields_then fun _ _ => trivial

end Compiler

/-! ## Carrying out instructions -/

namespace Interpreter

variable {σ α : Type} {code : Array UInt8} {pos last : Nat} {a : Action} {mc : Machine σ} {host : Host σ}

/-- The interpreter has read up to `last` when it is done with an instruction whose immediates start at
`pos`. It goes on there, unless it leaves the method or a branch whose distance it has read last takes it
away. -/
inductive ReadUpTo (code : Array UInt8) (a : Action) (pos last : Nat) : Next → Prop
  | onward : ReadUpTo code a pos last (.goto last)
  | taken {d : Int} (ha : a.hasTarget = true) (hd : Cursor.s24 ⟨code, pos⟩ = .ok d ⟨code, last⟩) :
    ReadUpTo code a pos last (.goto (last + d).toNat)
  | done {v : Value} (h : last = pos) : ReadUpTo code a pos last (.done v)

/-- The immediates can be skipped, and the interpreter has read up to where that leads. -/
def Extent (code : Array UInt8) (a : Action) (pos : Nat) (next : Next) : Prop :=
  ∃ last, a.layout.skip ⟨code, pos⟩ = .ok () ⟨code, last⟩ ∧ ReadUpTo code a pos last next

theorem extent_onward (h : a.layout.skip ⟨code, pos⟩ = .ok () ⟨code, last⟩) :
    Extent code a pos (.goto last) :=
  ⟨last, h, .onward⟩

theorem extent_done (ha : a.layout = .plain) (v : Value) : Extent code a pos (.done v) := by
  refine ⟨pos, ?_, .done rfl⟩
  rw [ha]
  rfl

theorem fetch_ok {read : Cursor.Read α} {x : α} {next : Nat} (h : read ⟨code, pos⟩ = .ok x ⟨code, next⟩) :
    (fetch code pos read : Act σ (α × Nat)) mc = .ok (x, next) mc := by
  unfold fetch
  rw [h]

theorem fetch_reads {read : Cursor.Read α} (hadv : Cursor.Advances read) :
    Yields (fetch code pos read : Act σ (α × Nat)) mc fun r _ =>
      read ⟨code, pos⟩ = .ok r.1 ⟨code, r.2⟩ := by
  unfold Yields Ends fetch
  cases hread : read ⟨code, pos⟩ with
  | ok x c =>
    obtain ⟨hcode, -, -⟩ := hadv _ _ _ hread
    obtain ⟨code', p⟩ := c
    cases hcode
    rfl
  | error e c => trivial

theorem fetchLocal_reads : Yields (fetchLocal code pos : Act σ (Nat × Nat)) mc
    fun r _ => Cursor.u30 ⟨code, pos⟩ = .ok r.1 ⟨code, r.2⟩ := by
  unfold fetchLocal
  rw [Yields, ends_bind, ends_frame]
  exact (fetch_reads (Cursor.advances_index _ _)).imp fun _ _ h => Cursor.u30_of_index h

theorem fetch_seeks {target : Int} :
    Yields (fetch code pos (Cursor.seek target) : Act σ (Unit × Nat)) mc fun r _ =>
      r.2 = target.toNat := by
  unfold Yields Ends fetch Cursor.seek
  by_cases h : 0 ≤ target ∧ target ≤ code.size <;> simp [h]

theorem seek_extent (ha : a.hasTarget = true) (hl : a.layout = .distance) {d : Int}
    (hd : Cursor.s24 ⟨code, pos⟩ = .ok d ⟨code, last⟩) :
    Yields (do
      let (_, pos) ← fetch code last (Cursor.seek (last + d))
      pure (.goto pos)) mc fun next _ => Extent code a pos next := by
  refine fetch_seeks.bind fun ⟨_, next⟩ _ h => ?_
  obtain rfl : next = (last + d).toNat := h
  refine ⟨last, ?_, .taken ha hd⟩
  rw [hl]
  exact bind_of_ok hd

theorem branch_extent (ha : a.hasTarget = true) (hl : a.layout = .distance) (take : Bool) :
    Yields (branch code pos take) mc fun next _ => Extent code a pos next := by
  refine (fetch_reads Cursor.advances_s24).bind fun ⟨d, last⟩ _ hd => ?_
  cases take with
  | false =>
    refine extent_onward ?_
    rw [hl]
    exact bind_of_ok hd
  | true => exact seek_extent ha hl hd

/-- An instruction that was carried out has been read to the end that its layout gives. -/
theorem perform_extent (hs : a.convention ≠ .unsupported) (start : Nat) (byte : UInt8) :
    Yields (perform host code start pos byte a) mc fun next _ =>
      Extent code a pos next := by
  cases a with
  | none => exact extent_onward rfl
  | debug =>
    refine (fetch_reads ?_).bind fun ⟨n, last⟩ _ h => extent_onward ?_
    · exact Cursor.advances_byte.bind fun _ => Cursor.advances_u30.bind fun _ =>
        Cursor.advances_byte.bind fun _ => Cursor.advances_u30
    · have hskip := bind_of_ok (f := fun _ => (pure () : Cursor.Read Unit)) h
      simp only [bind_assoc] at hskip
      exact hskip
  | note => exact (fetch_reads Cursor.advances_u30).bind fun _ _ h => extent_onward (bind_of_ok h)
  | pushByte =>
    refine (fetch_reads Cursor.advances_byte).bind fun _ _ h => ?_
    exact yields_then fun _ _ => yields_then fun _ _ => extent_onward (bind_of_ok h)
  | pushShort =>
    refine (fetch_reads Cursor.advances_u30).bind fun _ _ h => ?_
    exact yields_then fun _ _ => yields_then fun _ _ => extent_onward (bind_of_ok h)
  | pop => exact yields_then fun _ _ => yields_then fun _ _ => extent_onward rfl
  | dup | swap =>
    exact yields_then fun _ _ => yields_then fun _ _ => yields_then fun _ _ => yields_then fun _ _ =>
      extent_onward rfl
  | getLocal =>
    refine fetchLocal_reads.bind fun _ _ h => ?_
    exact yields_then fun _ _ => yields_then fun _ _ => extent_onward (bind_of_ok h)
  | setLocal =>
    refine fetchLocal_reads.bind fun _ _ h => ?_
    exact yields_then fun _ _ => yields_then fun _ _ => extent_onward (bind_of_ok h)
  | kill =>
    refine fetchLocal_reads.bind fun _ _ h => ?_
    exact yields_then fun _ _ => extent_onward (bind_of_ok h)
  | stepLocal r =>
    refine fetchLocal_reads.bind fun _ _ h => ?_
    exact yields_then fun _ _ => yields_then fun _ _ => yields_then fun _ _ => yields_then fun _ _ =>
      extent_onward (bind_of_ok h)
  | getFixed i | setFixed i =>
    exact yields_then fun _ _ => yields_then fun _ _ => yields_then fun _ _ => extent_onward rfl
  | returnVoid => exact extent_done rfl _
  | returnValue => exact yields_then fun _ _ => extent_done rfl _
  | throw => exact yields_then fun _ _ => trivial
  | supply s => exact yields_then fun _ _ => yields_then fun _ _ => extent_onward rfl
  | constant c =>
    refine yields_then fun _ _ => ?_
    cases c
    all_goals
      refine (fetch_reads (Cursor.advances_index _ _)).bind fun _ _ h => ?_
      exact yields_then fun _ _ => yields_then fun _ _ =>
        extent_onward (bind_of_ok (Cursor.u30_of_index h))
  | frame a => exact yields_then fun _ _ => extent_onward rfl
  | scopeObject =>
    refine (fetch_reads Cursor.advances_byte).bind fun _ _ h => ?_
    exact yields_then fun _ _ => extent_onward (bind_of_ok h)
  | named a =>
    refine yields_then fun _ _ => (fetch_reads (Cursor.advances_index _ _)).bind fun _ _ h => ?_
    exact yields_then fun _ _ => extent_onward (bind_of_ok (Cursor.u30_of_index h))
  | counted a =>
    refine (fetch_reads Cursor.advances_u30).bind fun _ _ h => ?_
    exact yields_then fun _ _ => extent_onward (bind_of_ok h)
  | namedCounted a =>
    refine yields_then fun _ _ => (fetch_reads (Cursor.advances_index _ _)).bind fun _ _ h => ?_
    refine (fetch_reads Cursor.advances_u30).bind fun _ _ h' => ?_
    exact yields_then fun _ _ => extent_onward (Cursor.skip_twoNumbers (Cursor.u30_of_index h) h')
  | hasNext2 =>
    refine fetchLocal_reads.bind fun _ _ h => fetchLocal_reads.bind fun _ _ h' => ?_
    exact yields_then fun _ _ => extent_onward (Cursor.skip_twoNumbers h h')
  | unary r =>
    exact yields_then fun _ _ => yields_then fun _ _ => yields_then fun _ _ => extent_onward rfl
  | binary r =>
    exact yields_then fun _ _ => yields_then fun _ _ => yields_then fun _ _ => yields_then fun _ _ =>
      extent_onward rfl
  | test t => exact yields_then fun _ _ => yields_then fun take _ => branch_extent rfl rfl take
  | compare c =>
    exact yields_then fun _ _ => yields_then fun _ _ => yields_then fun take _ => branch_extent rfl rfl take
  | jump =>
    refine (fetch_reads Cursor.advances_s24).bind fun ⟨d, last⟩ _ hd => ?_
    exact yields_then fun _ _ => seek_extent rfl rfl hd
  | lookupSwitch | unsupported => exact absurd rfl hs

end Interpreter

/-! ## The three readers -/

open Compiler Interpreter

/-- If code is generated for an instruction, the compiler goes on where skipping the instruction leads, and
the interpreter has read up to there whenever it has carried the instruction out; it does not fail to read it.
If the instruction cannot be skipped, no code is generated for it and it is not carried out. -/
theorem instruction_boundaries (m : Method) (pos : Nat) (byte : UInt8)
    (hbyte : m.bytes[pos]? = some byte) (hs : (actionOfByte byte).convention ≠ .unsupported) :
    (∀ (e e' : Emitter) (next : Nat), e.method = m →
      Emit.instruction byte (pos + 1) e = .ok next e' →
        skipInstruction byte ⟨m.bytes, pos + 1⟩ = .ok () ⟨m.bytes, next⟩ ∧
        ∀ (σ : Type) (host : Host σ) (mc : Machine σ),
          (∀ r mc', step host m.bytes pos mc = .ok r mc' →
            ReadUpTo m.bytes (actionOfByte byte) (pos + 1) next r) ∧
          (HostKeeps (fun _ => True) host → Steady m mc.frame →
            ∀ c mc', step host m.bytes pos mc ≠ .error (.code c) mc')) ∧
    ∀ (f : CodeFault) (c : Cursor), skipInstruction byte ⟨m.bytes, pos + 1⟩ = .error f c →
      (∀ (e e' : Emitter) (next : Nat), e.method = m →
        Emit.instruction byte (pos + 1) e ≠ .ok next e') ∧
      ∀ (σ : Type) (host : Host σ) (mc mc' : Machine σ) (r : Next),
        step host m.bytes pos mc ≠ .ok r mc' := by
  have hskip := skipInstruction_eq hs
  have hdecodes : ∀ (e e' : Emitter) (next : Nat), e.method = m →
      Emit.instruction byte (pos + 1) e = .ok next e' →
        Decodes m (actionOfByte byte) (pos + 1) next := by
    rintro e e' next rfl h
    exact (instruction_decodes e byte (pos + 1)).ok h
  have hextent : ∀ (σ : Type) (host : Host σ) (mc mc' : Machine σ) (r : Next),
      step host m.bytes pos mc = .ok r mc' → Extent m.bytes (actionOfByte byte) (pos + 1) r := by
    intro σ host mc mc' r h
    simp only [step, hbyte] at h
    exact (perform_extent hs pos byte).ok h
  rw [hskip]
  constructor
  · intro e e' next he h
    have hd := hdecodes e e' next he h
    have hnext := Cursor.skip_of_reader hd.reads
    refine ⟨hnext, fun σ host mc => ⟨?_, ?_⟩⟩
    · intro r mc' hstep
      obtain ⟨last, hlast, hread⟩ := hextent σ host mc mc' r hstep
      rw [hnext] at hlast
      cases hlast
      exact hread
    · intro hh hsteady c mc' hstep
      exact ((step_ends hh hsteady trivial pos).error hstep).1 ⟨byte, hbyte, hd.readable⟩ c rfl
  · intro f c hfail
    constructor
    · intro e e' next he h
      rw [Cursor.skip_of_reader (hdecodes e e' next he h).reads] at hfail
      cases hfail
    · intro σ host mc mc' r hstep
      obtain ⟨last, hlast, -⟩ := hextent σ host mc mc' r hstep
      rw [hlast] at hfail
      cases hfail

/-- A short number in two groups, at position 1. -/
theorem instruction_boundaries_short :
    let m : Method := { code := some #[0x02, 0x25, 0x80, 0x01] }
    ∃ e e' : Emitter, e.method = m ∧ Emit.instruction 0x25 2 e = .ok 4 e' ∧
      skipInstruction 0x25 ⟨m.bytes, 2⟩ = .ok () ⟨m.bytes, 4⟩ := by
  obtain ⟨e', he⟩ : ∃ e', Emit.instruction 0x25 2 {
      builder := { function := { name := "", blocks := #[{ name := "entry" }] }, point := 0 }
      method := { code := some #[0x02, 0x25, 0x80, 0x01] } } = .ok 4 e' := ⟨_, rfl⟩
  exact ⟨_, e', rfl, he, ((instruction_boundaries _ 1 0x25 rfl (by decide)).1 _ e' 4 rfl he).1⟩

end MethodJit
