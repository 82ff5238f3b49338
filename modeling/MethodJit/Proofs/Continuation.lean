import MethodJit.Proofs.Acceptance
import MethodJit.Proofs.Tasks

/-!
# What is left of a block

Between two instructions the rest of a block is not emitted yet, but it is known once the method has been
compiled. A run of the program stands at such a place: it executes the code that is still to be emitted, and
leaves the block as its terminator says. Such runs carry out what the emitter's actions realize, step by
step, until they leave the block.
-/

namespace MethodJit

open Compiler IR

variable {σ α β : Type} {host : Host σ} {c : Prop} {e e' ef : Emitter} {regs regs' : IR.Registers} {p : Program}
  {f q : Nat} {m : Method}

/-! ## Programs -/

/-- Leaves a block and goes on. -/
def IR.Program.depart (host : Host σ) (p : Program) (f : Nat) (x : Exit) (regs : IR.Registers) : Act σ Value :=
  match x.leave regs with
  | .goto i => p.run host f i regs
  | .done v => pure v
  | .trapped t => throw (.trap t)

/-- The blocks of a program are those of the function that was lowered. -/
theorem exists_lowered {fn : Function} (hs : fn.Sound) (hp : fn.lower = .ok p) {i : Nat} {b : Block}
    (hb : fn.blocks[i]? = some b) : ∃ pb, p.blocks[i]? = some pb ∧ lowerBlock b = .ok pb := by
  by_cases hempty : fn.blocks.isEmpty
  · unfold Function.lower at hp
    rw [if_pos hempty] at hp
    cases hp
  · cases hproblems : fn.problems with
    | cons x xs =>
      unfold Function.lower at hp
      rw [if_neg hempty, hproblems] at hp
      cases hp
    | nil =>
      obtain ⟨bs, hbs, hall⟩ := fn.lower_eq_ok hs (by simpa using hempty) hproblems
      rw [hp] at hbs
      cases hbs
      rw [← Array.getElem?_toList] at hb
      obtain ⟨hlt, hget⟩ := List.getElem?_eq_some_iff.1 hb
      have hlt' : i < bs.length := hall.length_eq ▸ hlt
      refine ⟨bs[i], ?_, ?_⟩
      · rw [← Array.getElem?_toList]
        exact List.getElem?_eq_getElem hlt'
      · have h := (List.forall₂_iff_get.1 hall).2 i hlt hlt'
        rw [← hget]
        exact h

/-- A program runs a block as the function has it, and leaves it. -/
theorem run_lowered {fn : Function} (hs : fn.Sound) (hp : fn.lower = .ok p) {i : Nat} {b : Block}
    (hb : fn.blocks[i]? = some b) (regs : IR.Registers) :
    p.run host (f + 1) i regs = execInstrs host b.instrs.toList regs >>= p.depart host f (lowerTerm b.term) := by
  obtain ⟨pb, hpb, hlower⟩ := exists_lowered hs hp hb
  unfold lowerBlock at hlower
  cases hsteps : b.instrs.toList.mapM (lowerInstr b.name) with
  | error ε =>
    rw [hsteps] at hlower
    cases hlower
  | ok steps =>
    rw [hsteps] at hlower
    cases hlower
    rw [← execSteps_eq hsteps]
    funext mc
    unfold Program.run
    rw [hpb]
    simp only
    cases hexec : execSteps host steps regs mc with
    | error ε mc' => rw [bind_of_error hexec]
    | ok regs' mc' =>
      rw [bind_of_ok hexec]
      unfold Program.depart
      dsimp only
      cases (lowerTerm b.term).leave regs' <;> rfl

/-! ## The rest of a block -/

namespace Compiler

/-- The code that the block at the insertion point is still to be given. -/
def remaining (ef e : Emitter) : List Instr :=
  ((ef.function.block? e.builder.point).map fun b => b.instrs.toList.drop e.current.length).getD []

/-- How the block at the insertion point will be left. -/
def ending (ef e : Emitter) : Exit :=
  ((ef.function.block? e.builder.point).map fun b => lowerTerm b.term).getD .retVoid

theorem Extends.block (h : Extends q e ef) (hs : e.Sound) :
    ∃ b b', e.function.block? e.builder.point = some b ∧ ef.function.block? e.builder.point = some b' ∧
      BlockExtends b b' := by
  obtain ⟨b, hb⟩ := hs.point
  obtain ⟨h0, hb₀⟩ := Function.block?_eq_some.1 hb
  obtain ⟨b', hb', hext⟩ := h.blocks _ b hb₀
  exact ⟨b, b', hb, Function.block?_eq_some.2 ⟨h0, hb'⟩, hext⟩

/-- What has been emitted meanwhile is no longer to come. -/
theorem remaining_eq (ho : Onward e e') (hpoint : e'.builder.point = e.builder.point) (hs : e'.Sound)
    (h : Extends q e' ef) : remaining ef e = emitted e e' ++ remaining ef e' := by
  obtain ⟨b, b', hb, hb', -, is, his⟩ := h.block hs
  have hcurrent : e'.current = b.instrs.toList := by simp [Emitter.current, hb]
  have hcode : b'.instrs.toList = e.current ++ (emitted e e' ++ is.toList) := by
    rw [his, Array.toList_append, ← hcurrent, ho.current_eq, List.append_assoc]
  have hrest : b'.instrs.toList = e'.current ++ is.toList := by
    rw [his, Array.toList_append, ← hcurrent]
  unfold remaining
  rw [← hpoint, hb', Option.map_some, Option.map_some, Option.getD_some, Option.getD_some, hrest, List.drop_left,
    ← hrest, hcode, List.drop_left]

/-- Nothing is left of a block that has just ended. -/
theorem remaining_terminate (ho : e.Open) {t : Term} (h : Extends q (e.terminate t) ef) :
    remaining ef e = [] ∧ ending ef e = lowerTerm t := by
  obtain ⟨b, hb, hterms⟩ := ho
  obtain ⟨h0, hb₀⟩ := Function.block?_eq_some.1 hb
  have hb₁ : (e.terminate t).function.blocks[e.builder.point.toNat]? = some (Build.terminateWith t b) := by
    rw [terminate_blocks, hb₀, Option.map_some, if_pos rfl]
  obtain ⟨b', hb', hext, -⟩ := h.blocks _ _ hb₁
  obtain rfl := hext (Nat.succ_ne_zero _)
  have hfinal : ef.function.block? e.builder.point = some (Build.terminateWith t b) :=
    Function.block?_eq_some.2 ⟨h0, hb'⟩
  unfold remaining ending
  rw [hfinal]
  simp [Emitter.current, hb, Build.terminateWith, hterms]

/-- Nothing has changed that concerns the code at hand. -/
structure Unmoved (e e' : Emitter) : Prop where
  idle : Idle e e'
  point : e'.builder.point = e.builder.point
  current : e'.current = e.current
  types : e'.types = e.types

theorem Unmoved.trans {e'' : Emitter} (h : Unmoved e e') (h' : Unmoved e' e'') : Unmoved e e'' :=
  ⟨h.idle.trans h'.idle, h'.point.trans h.point, h'.current.trans h.current, h'.types.trans h.types⟩

theorem Unmoved.symm (h : Unmoved e e') : Unmoved e' e :=
  ⟨⟨h.idle.operands.symm, h.idle.locals.symm, h.idle.method.symm⟩, h.point.symm, h.current.symm, h.types.symm⟩

theorem Unmoved.onward (h : Unmoved e e') : Onward e e' := by
  refine ⟨?_, ?_⟩
  · rw [h.types]
  · rw [h.current]

theorem unmoved_noting (e : Emitter) (offset : Int) (log : Array LogLine) : Unmoved e (e.noting offset log) :=
  ⟨⟨rfl, rfl, rfl⟩, rfl, rfl, rfl⟩

theorem unmoved_register (hs : e.Sound) (offset : Int) (name : String) : Unmoved e (e.register offset name) := by
  obtain ⟨b, hb⟩ := hs.point
  refine ⟨⟨rfl, rfl, rfl⟩, rfl, ?_, rfl⟩
  have hb' := register_block?_of_some offset name hb
  have hpoint : (e.register offset name).builder.point = e.builder.point := rfl
  unfold Emitter.current
  rw [hpoint, hb', hb]

theorem unmoved_blockAt (hs : e.Sound) {offset : Int} {id : BlockId} (h : Emit.blockAt offset e = .ok id e') :
    Unmoved e e' := by
  cases hget : e.blocks.get? offset with
  | some id' =>
    rw [blockAt_of_some hget] at h
    cases h
    exact ⟨⟨rfl, rfl, rfl⟩, rfl, rfl, rfl⟩
  | none =>
    rw [blockAt_of_none hget] at h
    cases h
    exact unmoved_register hs ..

/-- Nothing is pending, and what is known of the locals is right. -/
theorem Fits.of_synced {mc : Machine σ} {V : View} (hp : Primed e regs) (hf : mc.frame.Shows V) (hsync : e.Synced)
    (hsize : e.locals.size = V.locals.length)
    (hknown : ∀ (i : Nat) (s : Slot) (v : Value), e.locals[i]? = some s → V.locals[i]? = some v →
      s.entry.isNone = false → s.entry.Means e regs (.object v))
    (hnear : ∀ (i : Nat) (s : Slot), e.locals[i]? = some s → s ≠ {} → i < 2 ^ 31) :
    Fits e regs mc V (V.lane mc.heap) where
  primed := hp
  frame := hf
  heap := rfl
  setting := rfl
  scope := rfl
  operands := ⟨[], by rw [hsync.operands]; exact .nil, rfl⟩
  size := hsize
  length := List.length_map _
  slots i s v l hs hv hl := by
    have hclean := hsync.clean s (Array.mem_of_getElem? hs)
    have heq : l = ⟨v, none⟩ := by
      have h : (V.locals.map fun v => ({ value := v } : Local))[i]? = some l := hl
      rw [List.getElem?_map, hv] at h
      exact (Option.some.inj h).symm
    refine ⟨fun h => absurd (hclean.symm.trans h) Bool.false_ne_true, fun _ => heq, fun _ hn => ?_⟩
    exact hknown i s v hs hv hn
  near := hnear

theorem Fits.unmoved {mc : Machine σ} {V : View} {ℓ : Lane} (hf : Fits e regs mc V ℓ) (h : Unmoved e e') :
    Fits e' regs mc V ℓ := by
  have hkept := hf.kept h.idle h.onward (.refl _ regs) mc.heap
  rwa [← hf.heap, show { mc with heap := ℓ.heap } = mc by rw [hf.heap]] at hkept

/-- The code of the call of a routine on the frame. -/
theorem performs_frameCall (hp : Primed e regs) (name : String) (k : FrameCall) :
    Performs host e regs (k.emit name) (k.run host) fun _ _ _ _ => True := by
  have hword {v : ValueId} {i : Int32} {e : Emitter} {regs : IR.Registers} (h : Holding .int v i.toInt64 e regs) :
      (regs.at v).toInt32 = i := by
    rw [h.2]
    exact Int32.toInt32_toInt64 i
  cases k with
  | frame a =>
    exact Performs.congr (Performs.bind (performs_effect name (r := .frame a) rfl rfl rfl)
      fun _ _ _ _ _ _ h => Performs.pure (c := ()) h) (bind_pure _)
  | indexed a i =>
    refine Performs.congr (Performs.bind (performs_const hp i).of_pure
      fun n _ e₁ regs₁ ho hs hn => ?_) (pure_bind _ fun _ => a.run host i)
    obtain ⟨-, hn⟩ := hn
    have h : Performs host e₁ regs₁ (Emit.callHelper (.ofRoutine name (.indexed a)) [paramFrame, n])
        (a.run host (regs₁.at n).toInt32) fun _ _ _ _ => True := performs_effect name rfl rfl rfl
    rw [hword hn] at h
    exact Performs.congr (Performs.bind h fun _ _ _ _ _ _ h => Performs.pure (c := ()) h) (bind_pure _)
  | pair a i j =>
    refine Performs.congr (Performs.bind (performs_const hp i).of_pure
      fun n _ e₁ regs₁ ho hs hn => ?_) (pure_bind _ fun _ => a.run host i j)
    obtain ⟨-, hn⟩ := hn
    refine Performs.congr (Performs.bind (performs_const (hp.onward ho hs) j).of_pure
      fun n' _ e₂ regs₂ ho' hs' hn' => ?_) (pure_bind _ fun _ => a.run host i j)
    obtain ⟨-, hn'⟩ := hn'
    have h : Performs host e₂ regs₂ (Emit.callHelper (.ofRoutine name (.pair a)) [paramFrame, n, n'])
        (a.run host (regs₂.at n).toInt32 (regs₂.at n').toInt32) fun _ _ _ _ => True :=
      performs_effect name rfl rfl rfl
    rw [hword (hn.kept ho' hs'), hword hn'] at h
    exact Performs.congr (Performs.bind h fun _ _ _ _ _ _ h => Performs.pure (c := ()) h) (bind_pure _)

instance (name : String) (k : FrameCall) : Forward (k.emit name) := by
  cases k <;> unfold FrameCall.emit <;> infer_instance

theorem invalidateLocal_eq_ok {i : Nat} (h : Emit.invalidateLocal i e = .ok () e') :
    e' = { e with locals := e.locals.setIfInBounds i {} } := by
  unfold Emit.invalidateLocal at h
  obtain ⟨s, e₁, hslot, hrest⟩ := bind_eq_ok h
  obtain ⟨rfl, -⟩ := slot_eq_ok hslot
  split at hrest
  · cases hrest
  · cases hrest
    rfl

/-- What is known of a local after a call was known before, and the routine has left the local alone. -/
theorem forget_eq_ok {n : Nat} {k : FrameCall} (hk : k.Proper n) (h : k.forget e = .ok () e') :
    e' = { e with locals := e'.locals } ∧ e'.locals.size = e.locals.size ∧
      ∀ i s, e'.locals[i]? = some s → s = {} ∨ e.locals[i]? = some s ∧ ¬k.Changes i := by
  have hplain (hpure : k.forget = pure ()) (hchanges : ∀ i, ¬k.Changes i) :
      e' = { e with locals := e'.locals } ∧ e'.locals.size = e.locals.size ∧
        ∀ i s, e'.locals[i]? = some s → s = {} ∨ e.locals[i]? = some s ∧ ¬k.Changes i := by
    rw [hpure] at h
    cases h
    exact ⟨rfl, rfl, fun i s hs => .inr ⟨hs, hchanges i⟩⟩
  cases k with
  | frame a | indexed a i => exact hplain rfl fun _ h => h
  | pair a i j =>
    by_cases ha : a = .hasNext2
    · subst ha
      obtain ⟨⟨hi, -⟩, ⟨hj, -⟩, -⟩ := hk rfl
      simp only [FrameCall.forget, toInt_eq_toNatClampNeg hi, toInt_eq_toNatClampNeg hj] at h
      obtain ⟨_, e₁, h₁, h₂⟩ := bind_eq_ok h
      obtain rfl := invalidateLocal_eq_ok h₁
      obtain rfl := invalidateLocal_eq_ok h₂
      refine ⟨rfl, by simp, fun l s hs => ?_⟩
      rw [Array.getElem?_setIfInBounds, Array.getElem?_setIfInBounds] at hs
      split at hs
      · split at hs <;> cases hs
        exact .inl rfl
      · split at hs
        · split at hs <;> cases hs
          exact .inl rfl
        · rename_i hlj hli
          refine .inr ⟨hs, ?_⟩
          rintro (rfl | rfl)
          · exact hli rfl
          · exact hlj rfl
    · have hchanges (l : Nat) : ¬(FrameCall.pair a i j).Changes l := by
        cases a <;> first | exact fun h => h | exact absurd rfl ha
      exact hplain (forget_pair ha i j) hchanges

/-- What the emitter knows of the frame after a call. -/
theorem Fits.after_call {mc mc' : Machine σ} {V V' : View} {ℓ : Lane} {e₁ : Emitter} {k : FrameCall}
    (hf : Fits e regs mc V ℓ) (hsync : e.Synced) (hk : k.Proper e.locals.size) (hi : Idle e e₁) (ho : Onward e e₁)
    (hs : SameBelow e.types.size regs regs') (hforget : k.forget e₁ = .ok () e')
    (hrest : mc.frame.Rests k.Changes mc'.frame) (hf' : mc'.frame.Shows V') :
    Fits e' regs' mc' V' (V'.lane mc'.heap) := by
  obtain ⟨heq, hsize, hslots⟩ := forget_eq_ok hk hforget
  have htypes : e'.types = e₁.types := by rw [heq]; rfl
  have ho' : Onward e e' := by rw [heq]; exact ⟨ho.types, ho.code⟩
  refine .of_synced (hf.primed.onward ho' hs) hf' ⟨?_, ?_⟩ ?_ ?_ ?_
  · rw [heq]
    exact hi.operands.trans hsync.operands
  · intro s hmem
    obtain ⟨i, hget⟩ := Array.mem_iff_getElem?.1 hmem
    rcases hslots i s hget with rfl | ⟨hget, -⟩
    · rfl
    · rw [hi.locals] at hget
      exact hsync.clean s (Array.mem_of_getElem? hget)
  · rw [hsize, hi.locals, hf.size, ← hf.frame.slots, ← hf'.slots, Array.length_toList, Array.length_toList, hrest.size]
  · intro i s v hget hv hn
    rcases hslots i s hget with rfl | ⟨hget, hchanges⟩
    · cases hn
    · rw [hi.locals] at hget
      have hv' : V.locals[i]? = some v := by
        rw [← hf'.slots, Array.getElem?_toList, hrest.slots i hchanges] at hv
        rw [← hf.frame.slots, Array.getElem?_toList, hv]
      obtain ⟨u, l, hu, -, hstands⟩ := hf.local hget
      obtain rfl : u = v := Option.some.inj (hu.symm.trans hv')
      have hclean := hsync.clean s (Array.mem_of_getElem? hget)
      exact (hstands.known hclean hn).kept ho' hs
  · intro i s hget hne
    rcases hslots i s hget with rfl | ⟨hget, -⟩
    · exact absurd rfl hne
    · rw [hi.locals] at hget
      exact hf.near i s hget hne

end Compiler

/-! ## Runs of the rest of a block -/

/-- A run of the code that the block is still to be given. -/
def Side.code (host : Host σ) (p : Program) (ef : Emitter) (f : Nat) (e : Emitter) (regs : IR.Registers) : Side σ where
  fits mc ℓ := regs.size = ef.types.size ∧ ∃ V, Fits e regs mc V ℓ
  run := execInstrs host (remaining ef e) regs >>= p.depart host f (ending ef e)

theorem Side.code_real (hsync : e.Synced) {mc : Machine σ} {ℓ : Lane} (h : (Side.code host p ef f e regs).fits mc ℓ) :
    mc.Real ℓ := by
  obtain ⟨-, V, hf⟩ := h
  exact ⟨V, hf.frame, hf.lane_eq hsync⟩

theorem Side.code_unmoved (h : Unmoved e e') : Side.code host p ef f e regs = Side.code host p ef f e' regs := by
  have hfits : (Side.code host p ef f e regs).fits = (Side.code host p ef f e' regs).fits := by
    funext mc ℓ
    refine propext (and_congr_right fun _ => ?_)
    exact ⟨fun ⟨V, hf⟩ => ⟨V, hf.unmoved h⟩, fun ⟨V, hf⟩ => ⟨V, hf.unmoved h.symm⟩⟩
  unfold Side.code remaining ending at *
  rw [h.point, h.current]
  rw [Side.mk.injEq]
  exact ⟨hfits, rfl⟩

/-- What is emitted first is run first. -/
theorem Side.code_split (ho : Onward e e') (hpoint : e'.builder.point = e.builder.point) (hs : e'.Sound)
    (hext : Extends q e' ef) :
    (Side.code host p ef f e regs).run =
      execInstrs host (emitted e e') regs >>= fun regs' => (Side.code host p ef f e' regs').run := by
  have hending : ending ef e = ending ef e' := by
    unfold ending
    rw [hpoint]
  unfold Side.code
  simp only
  rw [remaining_eq ho hpoint hs hext, execInstrs_append, bind_assoc, hending]

/-- The rest of a block carries out what is emitted first, and then what is left. -/
theorem Side.code_carries {x : Emit α} {y : LaneM β} {T : α → β → Emitter → IR.Registers → Prop} [hx : Forward x]
    (h : Realizes host c e regs x y T) {a : α} (hemit : x e = .ok a e')
    (hpoint : e'.builder.point = e.builder.point) (hs : e'.Sound) (hext : Extends q e' ef) :
    (Side.code host p ef f e regs).Carries c y fun b S =>
      ∃ regs', S = Side.code host p ef f e' regs' ∧ SameBelow e.types.size regs regs' ∧ T a b e' regs' := by
  rintro mc ℓ ⟨hsize, V, hf⟩
  have hle : e'.types.size ≤ regs.size := by
    obtain ⟨ts, hts⟩ := hext.grows
    rw [hsize, hts, Array.size_append]
    exact Nat.le_add_right _ _
  have hstaged := h mc V ℓ hf a e' hemit hle
  have hrun : (Side.code host p ef f e regs).run = execInstrs host (emitted e e') regs >>= fun regs' =>
      (Side.code host p ef f e' regs').run := Side.code_split (hx.onward hemit) hpoint hs hext
  cases hexec : execInstrs host (emitted e e') regs mc with
  | ok regs' mc' =>
    obtain ⟨hsame, hhost, b, ℓ', V', hy, hT, hf'⟩ := hstaged.ok hexec
    refine ends_of_ok hy ⟨Side.code host p ef f e' regs', mc', ?_, ⟨hsame.size.trans hsize, V', hf'⟩, hhost,
      regs', rfl, hsame, hT⟩
    rw [hrun, bind_of_ok hexec]
  | error ε mc' =>
    obtain ⟨ℓ', hy, hbroken⟩ := hstaged.error hexec
    refine ends_of_error hy ⟨mc', ?_, hbroken⟩
    rw [hrun, bind_of_error hexec]

/-- The rest of a block that calls a routine on the frame first. -/
theorem Side.code_calls (hsync : e.Synced) {k : FrameCall} (hk : k.Proper e.locals.size) {name : String}
    {e₁ : Emitter} (hemit : k.emit name e = .ok () e₁) (hforget : k.forget e₁ = .ok () e')
    (hpoint : e'.builder.point = e.builder.point) (hs : e'.Sound) (hext : Extends q e' ef) :
    (Side.code host p ef f e regs).Calls (k.run host) fun T => ∃ regs', T = Side.code host p ef f e' regs' := by
  rintro mc ℓ ⟨hsize, V, hf⟩
  refine ⟨⟨V, hf.frame, hf.lane_eq hsync⟩, ?_⟩
  have ho : Onward e e₁ := Forward.onward hemit
  obtain ⟨heq, -, -⟩ := forget_eq_ok hk hforget
  have hbuilder : e'.builder = e₁.builder := by rw [heq]
  have hle : e₁.types.size ≤ regs.size := by
    have htypes : e'.types = e₁.types := by rw [heq]; rfl
    obtain ⟨ts, hts⟩ := hext.grows
    rw [hsize, hts, htypes, Array.size_append]
    exact Nat.le_add_right _ _
  have hperforms : Performs host e regs (k.emit name) (k.run host) fun _ _ _ _ => True :=
    performs_frameCall hf.primed name k
  have hspares : Spares k.Changes (k.run host) := FrameCall.spares hk
  have hstaged := hperforms mc () e₁ hemit hle
  have hrun : (Side.code host p ef f e regs).run = execInstrs host (emitted e e₁) regs >>= fun regs' =>
      (Side.code host p ef f e' regs').run := by
    have hsame : emitted e e₁ = emitted e e' := by
      unfold emitted Emitter.current Emitter.function
      rw [hbuilder]
    have ho' : Onward e e' := by rw [heq]; exact ⟨ho.types, ho.code⟩
    rw [hsame]
    exact Side.code_split ho' hpoint hs hext
  cases hexec : execInstrs host (emitted e e₁) regs mc with
  | ok regs' mc' =>
    obtain ⟨hsame, hi, _, hcall, -⟩ := hstaged.ok hexec
    refine ends_of_ok hcall fun V' hf' => ⟨Side.code host p ef f e' regs', ?_, ⟨hsame.size.trans hsize, V', ?_⟩,
      regs', rfl⟩
    · rw [hrun, bind_of_ok hexec]
    · have hrest := hspares.rests hf.frame.locals hf.frame.stack hcall
      exact hf.after_call hsync hk hi ho hsame hforget hrest hf'
  | error ε mc' =>
    have hcall := hstaged.error hexec
    refine ends_of_error hcall ?_
    rw [hrun, bind_of_error hexec]

/-- What is pending does not concern the code that is still to come. -/
theorem Side.run_of_builder (h : e'.builder = e.builder) :
    (Side.code host p ef f e regs).run = (Side.code host p ef f e' regs).run := by
  unfold Side.code remaining ending Emitter.current Emitter.function
  rw [h]

/-- Leaving a block that has just ended. -/
theorem Side.code_run (ho : e.Open) {t : Term} (h : Extends q (e.terminate t) ef) :
    (Side.code host p ef f e regs).run = p.depart host f (lowerTerm t) regs := by
  obtain ⟨hcode, hending⟩ := remaining_terminate ho h
  unfold Side.code
  simp only
  rw [hcode, hending]
  rfl

end MethodJit
