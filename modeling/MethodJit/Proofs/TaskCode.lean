import MethodJit.Proofs.Stations

/-!
# The code of tasks

A run of a program that stands at a station carries out the task of the instruction there: what the emitter
does for the task becomes code that does to the lane what the task says, and the run goes on where the
interpreter does.
-/

namespace MethodJit

open Compiler IR Interpreter

namespace Compiler

variable {σ : Type} {host : Host σ} {c : Prop} {e e' : Emitter} {E : Fault → Emitter → Prop} {regs : IR.Registers}

/-! ## Calls of routines on the frame -/

/-- The code of a call leaves nothing pending. -/
theorem emit_frameCall_spec (hr : e.Ready) (hsync : e.Synced) (name : String) (k : FrameCall) :
    Ends (k.emit name) e E fun _ e' => Continues e e' ∧ e'.Synced := by
  cases k with
  | frame a =>
    refine (frameCall_spec hr hsync name (.frame a) (.cons hr.params.2.2 .nil)).bind fun _ _ h => h
  | indexed a i =>
    refine (const_spec hr i).bind fun n e₁ ⟨h₁, hn⟩ => ?_
    have hr₁ := h₁.ready hr
    refine (frameCall_spec hr₁ (h₁.synced hsync) name (.indexed a) (.cons hr₁.params.2.2 (.cons hn .nil))).bind ?_
    exact fun _ _ ⟨h₂, hsync₂⟩ => ⟨(h₁.continues hr).trans h₂, hsync₂⟩
  | pair a i j =>
    refine (const_spec hr i).bind fun n e₁ ⟨h₁, hn⟩ => ?_
    have hr₁ := h₁.ready hr
    refine (const_spec hr₁ j).bind fun n' e₂ ⟨h₂, hn'⟩ => ?_
    have hr₂ := h₂.ready hr₁
    refine (frameCall_spec hr₂ (h₂.synced (h₁.synced hsync)) name (.pair a)
      (.cons hr₂.params.2.2 (.cons (h₂.grows.getElem? hn) (.cons hn' .nil)))).bind ?_
    exact fun _ _ ⟨h₃, hsync₃⟩ => ⟨((h₁.trans h₂).continues hr).trans h₃, hsync₃⟩

theorem forget_spec (hr : e.Ready) (hsync : e.Synced) {k : FrameCall} (hk : k.Proper e.locals.size) :
    Ends k.forget e E fun _ e' => Continues e e' ∧ e'.Synced := by
  have hidle : Continues e e ∧ e.Synced := ⟨(Issues.refl e).continues hr, hsync⟩
  cases k with
  | frame a | indexed a i => exact hidle
  | pair a i j =>
    by_cases ha : a = .hasNext2
    · subst ha
      obtain ⟨⟨hi, hlt⟩, ⟨hj, hlt'⟩, -⟩ := hk rfl
      simp only [FrameCall.forget, toInt_eq_toNatClampNeg hi, toInt_eq_toNatClampNeg hj]
      refine (invalidateLocal_spec hr hsync hlt).bind ?_
      rintro _ e₁ ⟨h₁, hsync₁⟩
      refine (invalidateLocal_spec h₁.ready hsync₁ (h₁.lt_size hr hlt')).imp ?_
      rintro _ e₂ ⟨h₂, hsync₂⟩
      exact ⟨h₁.trans h₂, hsync₂⟩
    · rw [forget_pair ha i j]
      exact hidle

/-! ## Operands of tests -/

theorem realizes_popObject : Realizes host c e regs (do Emit.box (← Emit.pop)) Lane.popObject
    fun x v e' regs' => x.Means e' regs' (.object v) := by
  refine realizes_pop.bind fun x y e₁ regs₁ ho hs hx => ?_
  refine .of_primed fun hp => (realizes_box hp hx.1).imp fun z v e₂ regs₂ _ _ hz => hz.2

/-- The code of a test. -/
theorem realizes_test (hc : ¬c) (name : String) (t : Test) :
    Realizes host c e regs (do
      let x ← Emit.box (← Emit.pop)
      Emit.callHelper (.ofRoutine name (.test t)) [x.value]) (do
      let v ← Lane.popObject
      Lane.onHeap (t.run v)) (Holding .ofBool) := by
  have h : Realizes host c e regs (do
      let x ← Emit.box (← Emit.pop)
      Emit.callHelper (.ofRoutine name (.test t)) [x.value]) (do
      let y ← Lane.pop
      let v ← Lane.onHeap y.box
      Lane.onHeap (t.run v)) (Holding .ofBool) := by
    refine realizes_pop.bind fun x y e₁ regs₁ _ _ hx => ?_
    refine .of_primed fun hp => (realizes_box hp hx.1).bind fun x' v e₂ regs₂ _ _ hx' => ?_
    refine .of_primed fun hp' => ?_
    have hcall : Performs host e₂ regs₂ (Emit.callHelper (.ofRoutine name (.test t)) [x'.value])
        (onHeap (t.run v) : Act σ Bool) (Holding .ofBool) := by
      rw [← hx'.2.2.2]
      exact performs_call hp' name rfl rfl nofun
    exact (realizes_onHeap hcall fun h => absurd h hc).imp fun _ _ _ _ _ _ h => h.2
  refine h.congr ?_
  simp only [Lane.popObject, bind_assoc]

/-- The code of a comparison. -/
theorem realizes_compare (hc : ¬c) (name : String) (k : Comparison) :
    Realizes host c e regs (do
      let b ← Emit.pop
      let a ← Emit.box (← Emit.pop)
      let b ← Emit.box b
      Emit.callHelper (.ofRoutine name (.compare k)) [a.value, b.value]) (do
      let p ← Lane.popObjects
      Lane.onHeap (k.run p.1 p.2)) (Holding .ofBool) := by
  have h : Realizes host c e regs (do
      let b ← Emit.pop
      let a ← Emit.box (← Emit.pop)
      let b ← Emit.box b
      Emit.callHelper (.ofRoutine name (.compare k)) [a.value, b.value]) (do
      let y ← Lane.pop
      let x ← Lane.pop
      let v ← Lane.onHeap x.box
      let w ← Lane.onHeap y.box
      Lane.onHeap (k.run v w)) (Holding .ofBool) := by
    refine realizes_pop.bind fun b y e₁ regs₁ _ _ hb => realizes_pop.bind fun a x e₂ regs₂ ho₂ hs₂ ha => ?_
    have hb₂ := hb.1.kept ho₂ hs₂
    refine .of_primed fun hp => (realizes_box hp ha.1).bind fun a' v e₃ regs₃ ho₃ hs₃ ha' => ?_
    have hb₃ := hb₂.kept ho₃ hs₃
    refine .of_primed fun hp' => (realizes_box hp' hb₃).bind fun b' w e₄ regs₄ ho₄ hs₄ hb' => ?_
    have ha₄ := ha'.2.kept ho₄ hs₄
    refine .of_primed fun hp'' => ?_
    have hcall : Performs host e₄ regs₄ (Emit.callHelper (.ofRoutine name (.compare k)) [a'.value, b'.value])
        (onHeap (k.run v w) : Act σ Bool) (Holding .ofBool) := by
      rw [← ha₄.2.2, ← hb'.2.2.2]
      exact performs_call hp'' name rfl rfl nofun
    exact (realizes_onHeap hcall fun h => absurd h hc).imp fun _ _ _ _ _ _ h => h.2
  refine h.congr ?_
  simp only [Lane.popObjects, bind_assoc, pure_bind]

/-! ## Specifications -/

theorem popTest_spec (hr : e.Ready) (name : String) (t : Test) :
    Ends (do
      let x ← Emit.box (← Emit.pop)
      Emit.callHelper (.ofRoutine name (.test t)) [x.value]) e E fun v e' =>
        Continues e e' ∧ e'.types[v]? = some .bool := by
  refine (pop_spec hr).bind fun x e₁ ⟨h₁, hx⟩ => ?_
  refine (box_spec h₁.ready hx).bind fun x e₂ ⟨h₂, hx⟩ => ?_
  have hr₂ := h₂.ready h₁.ready
  refine (callHelper_spec hr₂ name (.test t) (.cons hx.2 .nil)).imp fun v e₃ ⟨h₃, hv⟩ => ?_
  exact ⟨h₁.trans ((h₂.trans h₃).continues h₁.ready), hv nofun⟩

theorem popCompare_spec (hr : e.Ready) (name : String) (k : Comparison) :
    Ends (do
      let b ← Emit.pop
      let a ← Emit.box (← Emit.pop)
      let b ← Emit.box b
      Emit.callHelper (.ofRoutine name (.compare k)) [a.value, b.value]) e E fun v e' =>
        Continues e e' ∧ e'.types[v]? = some .bool := by
  refine (pop_spec hr).bind fun b e₁ ⟨h₁, hb⟩ => ?_
  refine (pop_spec h₁.ready).bind fun a e₂ ⟨h₂, ha⟩ => ?_
  refine (box_spec h₂.ready ha).bind fun a e₃ ⟨h₃, ha⟩ => ?_
  have hr₃ := h₃.ready h₂.ready
  refine (box_spec hr₃ (hb.grow (h₂.grows.trans h₃.grows))).bind fun b e₄ ⟨h₄, hb⟩ => ?_
  have hr₄ := h₄.ready hr₃
  refine (callHelper_spec hr₄ name (.compare k) (.cons (ha.grow h₄.grows).2 (.cons hb.2 .nil))).imp
    fun v e₅ ⟨h₅, hv⟩ => ?_
  exact ⟨(h₁.trans h₂).trans ((h₃.trans (h₄.trans h₅)).continues h₂.ready), hv nofun⟩

/-! ## Targets of branches -/

theorem unmoved_branchTarget (hs : e.Sound) {next : Nat} {d : Int} {b : BlockId}
    (h : Emit.branchTarget next d e = .ok b e') : Unmoved e e' := by
  unfold Emit.branchTarget at h
  rw [get_bind] at h
  split at h
  · cases h
  · split at h
    · cases hget : e.blocks.get? (next + d) with
      | none =>
        rw [hget] at h
        cases h
      | some b' =>
        rw [hget] at h
        cases h
        exact ⟨⟨rfl, rfl, rfl⟩, rfl, rfl, rfl⟩
    · exact unmoved_blockAt hs h

/-- The blocks to which a branch leads. -/
theorem targets_ok {q pos next : Nat} {d : Int} {target onward : BlockId} {e₁ : Emitter} (hr : e.Ready) (hl : Laid q e)
    (hq : q ≤ pos) (hpos : pos ≤ e.method.bytes.size)
    (hread : Cursor.s24 ⟨e.method.bytes, pos⟩ = .ok d ⟨e.method.bytes, next⟩)
    (htarget : Emit.branchTarget next d e = .ok target e₁) (honward : Emit.blockAt next e₁ = .ok onward e') :
    Unmoved e e' ∧ Proceeds q e e' ∧ e'.blocks.get? (next + d) = some target ∧ e'.blocks.get? next = some onward := by
  obtain ⟨-, hle, hlast⟩ := Cursor.advances_s24 _ _ _ hread
  obtain ⟨h₁, hid, -⟩ := (branchTarget_spec hr hl (hq.trans hle) d).ok htarget
  have hlast₁ : (next : Int) ≤ e₁.method.bytes.size := by
    rw [h₁.extended.method]
    exact Int.ofNat_le.2 (hlast hpos)
  have hle₁ : (q : Int) ≤ next := Int.ofNat_le.2 (hq.trans hle)
  obtain ⟨h₂, hid'⟩ := (blockAt_spec (E := fun _ _ => True) h₁.ready h₁.laid hle₁ hlast₁).ok honward
  refine ⟨(unmoved_branchTarget hr.toSound htarget).trans (unmoved_blockAt h₁.ready.toSound honward), h₁.trans h₂, ?_,
    hid'⟩
  exact h₂.extended.map _ _ hid

end Compiler

variable {σ : Type} {host : Host σ} {c : Prop} {e e' ef : Emitter} {p : Program} {f q pos : Nat} {m : Method}
  {regs : IR.Registers} {byte : UInt8} {task : Task}

/-! ## Leaving -/

theorem continues_reset {e₁ e₂ : Emitter} (hr : e.Ready) (hsync : Emit.syncAll e = .ok () e₁)
    (hreset : Emit.resetLocals e₁ = .ok () e₂) : Continues e e₁ ∧ e₁.Synced ∧ Continues e₁ e₂ := by
  obtain ⟨hcont, hsynced⟩ := (syncAll_spec (E := fun _ _ => True) hr).ok hsync
  obtain ⟨hcont₂, -⟩ := (resetLocals_spec (E := fun _ _ => True) hcont.ready hsynced).ok hreset
  exact ⟨hcont, hsynced, hcont₂⟩

theorem extends_of_terminate {t : Term} (hr : e.Ready) (hterm : Emit.build (.terminate t) e = .ok () e')
    (hext : Extends q e' ef) : e' = e.terminate t ∧ Extends q e ef := by
  rw [build_terminate hr.isOpen t] at hterm
  cases hterm
  exact ⟨rfl, (extends_terminate hr.isOpen t).trans hext⟩

/-- Everything is stored before the block ends. -/
theorem Side.code_ends {e₁ e₂ : Emitter} {t : Term} (hr : e.Ready) (hsync : Emit.syncAll e = .ok () e₁)
    (hreset : Emit.resetLocals e₁ = .ok () e₂) (hterm : Emit.build (.terminate t) e₂ = .ok () e')
    (hext : Extends q e' ef) :
    (Side.code host p ef f e regs).Carries c Lane.syncAll fun _ T => ∃ regs', T = Side.code host p ef f e₁ regs' ∧
      SameBelow e.types.size regs regs' ∧ e₁.Synced ∧ T.run = p.depart host f (lowerTerm t) regs' := by
  obtain ⟨hcont, hsynced, hcont₂⟩ := continues_reset hr hsync hreset
  obtain ⟨rfl, hext₂⟩ := extends_of_terminate hcont₂.ready hterm hext
  have hbuilder : e₂.builder = e₁.builder := by
    rw [resetLocals_eq_ok hreset]
  have hext₁ : Extends q e₁ ef := (hcont₂.emits.extends hcont.ready.isOpen).trans hext₂
  refine (Side.code_carries (realizes_syncAll hr) hsync hcont.emits.point hcont.ready.toSound hext₁).mono id ?_
  rintro _ _ ⟨regs', rfl, hsame, -⟩
  refine ⟨regs', rfl, hsame, hsynced, ?_⟩
  rw [Side.run_of_builder hbuilder]
  exact Side.code_run hcont₂.ready.isOpen hext

/-- A value is thrown with everything stored. -/
theorem Side.code_raises {e₁ e₂ e₃ : Emitter} {x : Entry} {v : Value} {u : ValueId} (hsync : e₁.Synced)
    (hx : x.Means e₁ regs (.object v)) (hreset : Emit.resetLocals e₁ = .ok () e₂)
    (hcall : Emit.callHelper Registry.throwValue [x.value] e₂ = .ok u e₃)
    (hcont : Continues e₂ e₃) (hterm : Emit.build (.terminate .unreachable) e₃ = .ok () e') (hext : Extends q e' ef)
    {mc : Machine σ} {ℓ : Lane} (hfits : (Side.code host p ef f e₁ regs).fits mc ℓ) :
    mc.Real ℓ ∧ (Side.code host p ef f e₁ regs).run mc = .error (.thrown v) mc := by
  refine ⟨Side.code_real hsync hfits, ?_⟩
  have heq := resetLocals_eq_ok hreset
  have hbuilder : e₂.builder = e₁.builder := by rw [heq]
  have ho : Onward e₂ e₃ := Forward.onward hcall
  obtain ⟨-, hext₃⟩ := extends_of_terminate hcont.ready hterm hext
  have hsize : e₃.types.size ≤ regs.size := by
    obtain ⟨ts, hts⟩ := hext₃.grows
    rw [hfits.1, hts, Array.size_append]
    exact Nat.le_add_right _ _
  have hmeans : x.Means e₂ regs (.object v) := by
    rw [heq]
    exact hx
  have hperforms : Performs host e₂ regs (Emit.callHelper Registry.throwValue [x.value])
      (onHeap (Effect.throw.run v) : Act σ Unit) fun _ _ _ _ => True := performs_effectOf _ .throw hmeans
  have hstaged := hperforms mc u e₃ hcall hsize
  rw [Side.run_of_builder hbuilder]
  unfold Side.code
  simp only
  rw [remaining_eq ho hcont.emits.point hcont.ready.toSound hext₃, execInstrs_append, bind_assoc]
  cases hexec : execInstrs host (emitted e₂ e₃) regs mc with
  | ok regs' mc' =>
    obtain ⟨-, -, _, hthrow, -⟩ := hstaged.ok hexec
    cases hthrow
  | error ε mc' =>
    have hthrow := hstaged.error hexec
    rw [bind_of_error hexec]
    cases hthrow
    rfl

/-- The block ends with a branch on a condition. -/
theorem Side.code_branches {v : ValueId} {take : Bool} {d : Int} {next next' : Nat} (hr : e.Ready) (hl : Laid q e)
    (hq : q ≤ pos) (hpos : pos ≤ m.bytes.size) (hm : e.method = m)
    (hread : Cursor.s24 ⟨m.bytes, pos⟩ = .ok d ⟨m.bytes, next⟩) (hrange : 0 ≤ next + d)
    (hcond : Emit.conditional pos v e = .ok next' e') (hext : Extends q e' ef) (hv : Holding .ofBool v take e regs) :
    (Side.code host p ef f e regs).Does host c (do
      Lane.syncAll
      pure (.goto (if take then (next + d).toNat else next))) (Side.Resumes host p m ef f q) := by
  subst hm
  unfold Emit.conditional at hcond
  rw [bind_of_ok (emitFetch_ok hread)] at hcond
  obtain ⟨target, e₁, htarget, hcond⟩ := bind_eq_ok hcond
  obtain ⟨onward, e₂, honward, hcond⟩ := bind_eq_ok hcond
  obtain ⟨_, e₃, hsync, hcond⟩ := bind_eq_ok hcond
  obtain ⟨_, e₄, hterm, hcond⟩ := bind_eq_ok hcond
  cases hcond
  obtain ⟨hu, hproceeds, hidt, hido⟩ := targets_ok hr hl hq hpos hread htarget honward
  obtain ⟨hcont, hsynced⟩ := (syncAll_spec (E := fun _ _ => True) hproceeds.ready).ok hsync
  obtain ⟨rfl, hext₃⟩ := extends_of_terminate hcont.ready hterm hext
  have hmap {offset : Int} {b : BlockId} (hb : e₂.blocks.get? offset = some b) : ef.blocks.get? offset = some b :=
    hext₃.map _ _ (by rw [hcont.emits.map]; exact hb)
  rw [Side.code_unmoved hu]
  refine (Side.code_carries (realizes_syncAll hproceeds.ready) hsync hcont.emits.point hcont.ready.toSound
    hext₃).bind ?_
  rintro _ _ ⟨regs', rfl, hsame, -⟩
  refine .pure ?_
  have hword : regs'.at v = .ofBool take := by
    rw [hsame.words v (by rw [hu.types]; exact hv.1), hv.2]
  have hrun : (Side.code host p ef f e₃ regs').run = p.run host f (if take then target else onward).toNat regs' := by
    have hleave : (lowerTerm (.condBr v target onward)).leave regs' =
        .goto (if take then target else onward).toNat := by
      simp only [lowerTerm, Exit.leave, hword]
      cases take <;> rfl
    rw [Side.code_run hcont.ready.isOpen hext]
    unfold Program.depart
    rw [hleave]
  have hb : ef.blocks.get? ((if take then (next + d).toNat else next : Nat) : Int) =
      some (if take then target else onward) := by
    cases take with
    | true =>
      rw [if_pos rfl, if_pos rfl, Int.toNat_of_nonneg hrange]
      exact hmap hidt
    | false => exact hmap hido
  refine .entering hb (Side.code_departs hsynced hcont.ready.toSound ?_ hext₃ hrun)
  exact hcont.emits.method.trans hu.idle.method

/-! ## Tasks -/

theorem ends_of_deed {a : Action} {name : String} {d : Deed} {c c' : Cursor} (h : a.deed m name c = .ok d c') :
    a.ends = false := by
  cases a <;> first | rfl | cases h

/-- The code of what goes on behind its immediates. -/
theorem Side.code_deed (ha : Accepts m ef) (hst : Station m ef pos e) {d : Deed} {name : String} {next : Nat}
    (hd : d.Proper e.locals.size) (hemit : d.emit name e = .ok () e') (hproceeds : Proceeds (pos + 1) e e')
    (hnext : Arrives m next e') (hlt : pos < next) :
    ∃ how, ∀ f regs, (Side.code host p ef f e regs).Does host ((Task.deed d next).throws = true)
      ((Task.deed d next).lane .lazy how) (Side.Resumes host p m ef f (pos + 1)) := by
  have hext := hnext.extended ha
  have hgo (f : Nat) (regs : IR.Registers) :
      Side.Resumes host p m ef f (pos + 1) next (Side.code host p ef f e' regs) :=
    Side.code_arrives ha hnext hproceeds.ready.isOpen hlt regs
  cases d with
  | move mv =>
    have hreal : ∃ how, ∀ regs, Realizes host (mv.throws = true) e regs mv.emit (mv.lane .lazy how)
        fun _ _ _ _ => True := Move.exists_realizes hst.ready hd
    obtain ⟨how, hreal⟩ := hreal
    refine ⟨how, fun f regs => ?_⟩
    refine (Side.code_carries (hreal regs) hemit hproceeds.point hproceeds.ready.toSound hext).bind ?_
    rintro _ _ ⟨regs', rfl, -, -⟩
    exact .pure (hgo f regs')
  | call k =>
    refine ⟨.later, fun f regs => ?_⟩
    obtain ⟨_, e₁, hsync, hrest⟩ := bind_eq_ok hemit
    obtain ⟨_, e₂, hcall, hforget⟩ := bind_eq_ok hrest
    obtain ⟨hcont, hsynced⟩ := (syncAll_spec (E := fun _ _ => True) hst.ready).ok hsync
    have hk : k.Proper e₁.locals.size := by
      rw [hcont.size_locals hst.ready]
      exact hd
    obtain ⟨hcont₂, hsynced₂⟩ := (emit_frameCall_spec (E := fun _ _ => True) hcont.ready hsynced name k).ok hcall
    have hk₂ : k.Proper e₂.locals.size := by
      rw [hcont₂.size_locals hcont.ready]
      exact hk
    obtain ⟨hcont₃, -⟩ := (forget_spec (E := fun _ _ => True) hcont₂.ready hsynced₂ hk₂).ok hforget
    have hext₁ : Extends next e₁ ef := ((hcont₂.trans hcont₃).emits.extends hcont.ready.isOpen).trans hext
    refine (Side.code_carries (realizes_syncAll hst.ready) hsync hcont.emits.point hcont.ready.toSound hext₁).bind ?_
    rintro _ _ ⟨regs', rfl, -, -⟩
    refine .pure ?_
    have hpoint : e'.builder.point = e₁.builder.point := (hcont₂.trans hcont₃).emits.point
    refine (Side.code_calls hsynced hk hcall hforget hpoint hproceeds.ready.toSound hext).mono ?_
    rintro _ ⟨regs'', rfl⟩
    exact hgo f regs''

/-- The code of a return of nothing. -/
theorem Side.code_returnVoid {next : Nat} (hst : Station m ef pos e) (ha : actionOfByte byte = .returnVoid)
    (hinstr : Emit.instruction byte (pos + 1) e = .ok next e') (hext : Extends q e' ef) :
    (Side.code host p ef f e regs).Does host c (Task.returnVoid.lane .lazy .later)
      (Side.Resumes host p m ef f (pos + 1)) := by
  simp only [Emit.instruction, ha] at hinstr
  obtain ⟨_, e₁, hsync, hinstr⟩ := bind_eq_ok hinstr
  obtain ⟨_, e₂, hreset, hinstr⟩ := bind_eq_ok hinstr
  obtain ⟨_, e₃, hterm, hinstr⟩ := bind_eq_ok hinstr
  cases hinstr
  refine (Side.code_ends hst.ready hsync hreset hterm hext).bind ?_
  rintro _ _ ⟨regs', rfl, -, hsynced, hrun⟩
  refine .pure fun mc ℓ hfits => ⟨Side.code_real hsynced hfits, ?_⟩
  exact congrFun hrun mc

/-- The code of a return of a value. -/
theorem Side.code_returnValue {next : Nat} (hst : Station m ef pos e) (ha : actionOfByte byte = .returnValue)
    (hinstr : Emit.instruction byte (pos + 1) e = .ok next e') (hext : Extends q e' ef) :
    (Side.code host p ef f e regs).Does host c (Task.returnValue.lane .lazy .later)
      (Side.Resumes host p m ef f (pos + 1)) := by
  have heq : Emit.instruction byte (pos + 1) = ((do Emit.box (← Emit.pop)) >>= fun x => do
      Emit.syncAll
      Emit.resetLocals
      Emit.build (.terminate (.ret x.value))
      pure (pos + 1)) := by
    simp only [Emit.instruction, ha, bind_assoc]
  rw [heq] at hinstr
  obtain ⟨x, e₁, hpop, hinstr⟩ := bind_eq_ok hinstr
  obtain ⟨_, e₂, hsync, hinstr⟩ := bind_eq_ok hinstr
  obtain ⟨_, e₃, hreset, hinstr⟩ := bind_eq_ok hinstr
  obtain ⟨_, e₄, hterm, hinstr⟩ := bind_eq_ok hinstr
  cases hinstr
  obtain ⟨hcont, -⟩ := (popBoxed_spec (E := fun _ _ => True) hst.ready).ok hpop
  obtain ⟨hcont₂, -, hcont₃⟩ := continues_reset hcont.ready hsync hreset
  obtain ⟨-, hext₃⟩ := extends_of_terminate hcont₃.ready hterm hext
  have hext₁ : Extends q e₁ ef := ((hcont₂.trans hcont₃).emits.extends hcont.ready.isOpen).trans hext₃
  refine (Side.code_carries realizes_popObject hpop hcont.emits.point hcont.ready.toSound hext₁).bind ?_
  rintro v _ ⟨regs₁, rfl, -, hx⟩
  refine (Side.code_ends hcont.ready hsync hreset hterm hext).bind ?_
  rintro _ _ ⟨regs₂, rfl, hsame, hsynced, hrun⟩
  refine .pure fun mc ℓ hfits => ⟨Side.code_real hsynced hfits, ?_⟩
  have hword : (regs₂.at x.value).toValue = v := by
    rw [hsame.words x.value hx.2.1, hx.2.2]
  rw [← hword]
  exact congrFun hrun mc

/-- The code of a throw. -/
theorem Side.code_throw {next : Nat} (hst : Station m ef pos e) (ha : actionOfByte byte = .throw)
    (hinstr : Emit.instruction byte (pos + 1) e = .ok next e') (hext : Extends q e' ef) :
    (Side.code host p ef f e regs).Does host c (Task.throw.lane .lazy .later)
      (Side.Resumes host p m ef f (pos + 1)) := by
  have heq : Emit.instruction byte (pos + 1) = ((do Emit.box (← Emit.pop)) >>= fun x => do
      Emit.syncAll
      Emit.resetLocals
      let _ ← Emit.callHelper Registry.throwValue [x.value]
      Emit.build (.terminate .unreachable)
      pure (pos + 1)) := by
    simp only [Emit.instruction, ha, bind_assoc]
  rw [heq] at hinstr
  obtain ⟨x, e₁, hpop, hinstr⟩ := bind_eq_ok hinstr
  obtain ⟨_, e₂, hsync, hinstr⟩ := bind_eq_ok hinstr
  obtain ⟨_, e₃, hreset, hinstr⟩ := bind_eq_ok hinstr
  obtain ⟨u, e₄, hcall, hinstr⟩ := bind_eq_ok hinstr
  obtain ⟨_, e₅, hterm, hinstr⟩ := bind_eq_ok hinstr
  cases hinstr
  obtain ⟨hcont, hobject⟩ := (popBoxed_spec (E := fun _ _ => True) hst.ready).ok hpop
  obtain ⟨hcont₂, hsynced, hcont₃⟩ := continues_reset hcont.ready hsync hreset
  have hgrows := (hcont₂.trans hcont₃).grows
  obtain ⟨hissues, -⟩ := (callHelper_spec (E := fun _ _ => True) hcont₃.ready "throwValue" (.effect .throw)
    (.cons (hobject.grow hgrows).2 .nil)).ok hcall
  have hcont₄ := hissues.continues hcont₃.ready
  obtain ⟨-, hext₄⟩ := extends_of_terminate hcont₄.ready hterm hext
  have hext₂ : Extends q e₂ ef := ((hcont₃.trans hcont₄).emits.extends hcont₂.ready.isOpen).trans hext₄
  have hext₁ : Extends q e₁ ef := (hcont₂.emits.extends hcont.ready.isOpen).trans hext₂
  refine (Side.code_carries realizes_popObject hpop hcont.emits.point hcont.ready.toSound hext₁).bind ?_
  rintro v _ ⟨regs₁, rfl, -, hx⟩
  refine (Side.code_carries (realizes_syncAll hcont.ready) hsync hcont₂.emits.point hcont₂.ready.toSound hext₂).bind ?_
  rintro _ _ ⟨regs₂, rfl, hsame, -⟩
  refine .pure fun mc ℓ hfits => ?_
  exact Side.code_raises hsynced (hx.kept (Forward.onward hsync) hsame) hreset hcall hcont₄ hterm hext hfits

/-- The code of a branch whose condition is computed first. -/
theorem Side.code_conditional {x : Emit ValueId} [Forward x] {y : LaneM Bool} {d : Int} {next next' : Nat}
    (hst : Station m ef pos e) (hreal : Realizes host c e regs x y (Holding .ofBool))
    (hspec : Yields x e fun v e₁ => Continues e e₁ ∧ e₁.types[v]? = some .bool)
    (hd : Cursor.s24 ⟨m.bytes, pos + 1⟩ = .ok d ⟨m.bytes, next⟩) (hrange : 0 ≤ next + d) (hpos : pos < m.bytes.size)
    (hinstr : (x >>= Emit.conditional (pos + 1)) e = .ok next' e') (hext : Extends (pos + 1) e' ef) :
    (Side.code host p ef f e regs).Does host c (do
      let take ← y
      Lane.syncAll
      pure (.goto (if take then (next + d).toNat else next))) (Side.Resumes host p m ef f (pos + 1)) := by
  obtain ⟨v, e₁, hx, hcond⟩ := bind_eq_ok hinstr
  obtain ⟨hcont, htype⟩ := hspec.ok hx
  have hproceeds := hcont.proceeds hst.ready hst.laid
  have hm : e₁.method = m := hcont.emits.method.trans hst.method
  have hlast : pos + 1 ≤ e₁.method.bytes.size := by
    rw [hm]
    exact hpos
  obtain ⟨hstops, -⟩ := (conditional_spec hcont.ready hproceeds.laid (Nat.le_refl _) hlast htype).ok hcond
  refine (Side.code_carries hreal hx hcont.emits.point hcont.ready.toSound (hstops.extended.trans hext)).bind ?_
  rintro take _ ⟨regs', rfl, -, hv⟩
  exact Side.code_branches hcont.ready hproceeds.laid (Nat.le_refl _) hpos hm hd hrange hcond hext hv

/-- The code of a jump. -/
theorem Side.code_jump {d : Int} {next next' : Nat} (hst : Station m ef pos e) (ha : actionOfByte byte = .jump)
    (hd : Cursor.s24 ⟨m.bytes, pos + 1⟩ = .ok d ⟨m.bytes, next⟩) (hrange : 0 ≤ next + d) (hpos : pos < m.bytes.size)
    (hinstr : Emit.instruction byte (pos + 1) e = .ok next' e') (hext : Extends (pos + 1) e' ef) :
    (Side.code host p ef f e regs).Does host c ((Task.jump (.ofInt d) (next + d).toNat).lane .lazy .later)
      (Side.Resumes host p m ef f (pos + 1)) := by
  obtain rfl := hst.method
  have heq : Emit.instruction byte (pos + 1) = (Emit.fetch (pos + 1) Cursor.s24 >>= fun r => do
      let target ← Emit.branchTarget r.2 r.1
      let _ ← Emit.blockAt r.2
      Emit.syncAll
      (FrameCall.indexed .jump (.ofInt r.1)).emit (Opcode.nameOfByte byte)
      Emit.build (.terminate (.br target))
      pure r.2) := by
    simp only [Emit.instruction, ha, FrameCall.emit, bind_assoc, pure_bind]
  rw [heq, bind_of_ok (emitFetch_ok hd)] at hinstr
  obtain ⟨target, e₁, htarget, hinstr⟩ := bind_eq_ok hinstr
  obtain ⟨onward, e₂, honward, hinstr⟩ := bind_eq_ok hinstr
  obtain ⟨_, e₃, hsync, hinstr⟩ := bind_eq_ok hinstr
  obtain ⟨_, e₄, hcall, hinstr⟩ := bind_eq_ok hinstr
  obtain ⟨_, e₅, hterm, hinstr⟩ := bind_eq_ok hinstr
  cases hinstr
  obtain ⟨hu, hproceeds, hid, -⟩ := targets_ok hst.ready hst.laid (Nat.le_refl _) hpos hd htarget honward
  obtain ⟨hcont, hsynced⟩ := (syncAll_spec (E := fun _ _ => True) hproceeds.ready).ok hsync
  obtain ⟨hcont₂, hsynced₂⟩ := (emit_frameCall_spec (E := fun _ _ => True) hcont.ready hsynced _ _).ok hcall
  obtain ⟨rfl, hext₄⟩ := extends_of_terminate hcont₂.ready hterm hext
  have hext₃ : Extends (pos + 1) e₃ ef := (hcont₂.emits.extends hcont.ready.isOpen).trans hext₄
  rw [Side.code_unmoved hu]
  refine (Side.code_carries (realizes_syncAll hproceeds.ready) hsync hcont.emits.point hcont.ready.toSound
    hext₃).bind ?_
  rintro _ _ ⟨regs', rfl, -, -⟩
  refine .pure ?_
  have hproper : (FrameCall.indexed .jump (.ofInt d)).Proper e₃.locals.size := trivial
  have hforget : (FrameCall.indexed .jump (.ofInt d)).forget e₄ = .ok () e₄ := rfl
  refine (Side.code_calls hsynced hproper hcall hforget hcont₂.emits.point hcont₂.ready.toSound hext₄).mono ?_
  rintro _ ⟨regs'', rfl⟩
  have hb : ef.blocks.get? (((next + d).toNat : Nat) : Int) = some target := by
    rw [Int.toNat_of_nonneg hrange]
    refine hext₃.map _ _ ?_
    rw [hcont.emits.map]
    exact hid
  have hrun : (Side.code host p ef f e₄ regs'').run = p.run host f target.toNat regs'' :=
    Side.code_run hcont₂.ready.isOpen hext
  refine .entering hb (Side.code_departs hsynced₂ hcont₂.ready.toSound ?_ hext₄ hrun)
  exact (hcont.trans hcont₂).emits.method.trans hu.idle.method

/-- A run that stands at a station carries out the task of the instruction. -/
theorem Side.code_does (ha : Accepts m ef) (hst : Station m ef pos e) (hbyte : m.bytes[pos]? = some byte)
    (hden : Denotes m byte (pos + 1) task) (hwithin : task.Within m.locals.toNatClampNeg) :
    ∃ how, ∀ f regs, (Side.code host p ef f e regs).Does host (task.throws = true) (task.lane .lazy how)
      (Side.Resumes host p m ef f (pos + 1)) := by
  obtain ⟨byte', next, e', hbyte', hinstr, hnext, hlt⟩ := hst.translated
  rw [hbyte] at hbyte'
  cases hbyte'
  have hpos : pos < m.bytes.size := (Array.getElem?_eq_some_iff.1 hbyte).1
  have hext : Extends (pos + 1) e' ef := (hnext.extended ha).mono hlt
  have hno (h : false = true) : False := Bool.false_ne_true h
  cases hden with
  | @deed d next' hfixed hd =>
    obtain rfl := hst.method
    have hlast : pos + 1 ≤ e.method.bytes.size := hpos
    have htrans := (instruction_spec hst.ready hst.laid (Nat.le_refl _) hlast byte).ok hinstr
    rw [instruction_deed (proper_actionOfByte byte) hfixed hd] at hinstr
    obtain ⟨_, e₁, hemit, hrest⟩ := bind_eq_ok hinstr
    cases hrest
    refine Side.code_deed ha hst ?_ hemit (htrans.proceeds (ends_of_deed hd)) hnext hlt
    rw [hst.ready.numLocals]
    exact hwithin
  | returnVoid hact => exact ⟨.later, fun f regs => Side.code_returnVoid hst hact hinstr hext⟩
  | returnValue hact => exact ⟨.later, fun f regs => Side.code_returnValue hst hact hinstr hext⟩
  | throw hact => exact ⟨.later, fun f regs => Side.code_throw hst hact hinstr hext⟩
  | @test t d next' hact hd hrange =>
    refine ⟨.later, fun f regs => ?_⟩
    have heq : Emit.instruction byte (pos + 1) = ((do
        let x ← Emit.box (← Emit.pop)
        Emit.callHelper (.ofRoutine (Opcode.nameOfByte byte) (.test t)) [x.value]) >>=
          Emit.conditional (pos + 1)) := by
      simp only [Emit.instruction, hact, bind_assoc]
    rw [heq] at hinstr
    have hlane : (Task.test t (next' + d).toNat next').lane .lazy .later = ((do
        let v ← Lane.popObject
        Lane.onHeap (t.run v)) >>= fun take => do
          Lane.syncAll
          pure (.goto (if take then (next' + d).toNat else next'))) := by
      simp only [Task.lane, bind_assoc]
    rw [hlane]
    exact Side.code_conditional hst (realizes_test hno _ t) (popTest_spec hst.ready _ t) hd hrange.1 hpos hinstr hext
  | @compare k d next' hact hd hrange =>
    refine ⟨.later, fun f regs => ?_⟩
    have heq : Emit.instruction byte (pos + 1) = ((do
        let b ← Emit.pop
        let a ← Emit.box (← Emit.pop)
        let b ← Emit.box b
        Emit.callHelper (.ofRoutine (Opcode.nameOfByte byte) (.compare k)) [a.value, b.value]) >>=
          Emit.conditional (pos + 1)) := by
      simp only [Emit.instruction, hact, bind_assoc]
    rw [heq] at hinstr
    have hlane : (Task.compare k (next' + d).toNat next').lane .lazy .later = ((do
        let p ← Lane.popObjects
        Lane.onHeap (k.run p.1 p.2)) >>= fun take => do
          Lane.syncAll
          pure (.goto (if take then (next' + d).toNat else next'))) := by
      simp only [Task.lane, bind_assoc]
    rw [hlane]
    exact Side.code_conditional hst (realizes_compare hno _ k) (popCompare_spec hst.ready _ k) hd hrange.1 hpos hinstr
      hext
  | @jump d next' hact hd hrange =>
    exact ⟨.later, fun f regs => Side.code_jump hst hact hd hrange.1 hpos hinstr hext⟩

end MethodJit
