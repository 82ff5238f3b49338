import MethodJit.Engine
import MethodJit.Proofs.Flow

/-!
# Defects stay inside a call

Lowering a function that was generated succeeds, and programs report no defects of methods. A function that
runs a method therefore never fails with such a defect: an engine that meets one throws an error that
scripts can see.
-/

namespace MethodJit

variable {σ α β ε : Type}

/-! ## Lowering -/

/-- Mapping succeeds if it does for each entry. -/
theorem mapM_eq_ok {f : α → Except ε β} {l : List α} (h : ∀ a ∈ l, ∃ b, f a = .ok b) :
    ∃ bs, l.mapM f = .ok bs ∧ List.Forall₂ (fun a b => f a = .ok b) l bs := by
  induction l with
  | nil => exact ⟨[], rfl, .nil⟩
  | cons a l ih =>
    obtain ⟨hb, hl⟩ := List.forall_mem_cons.1 h
    obtain ⟨b, hb⟩ := hb
    obtain ⟨bs, hbs, hall⟩ := ih hl
    refine ⟨b :: bs, ?_, .cons hb hall⟩
    rw [List.mapM_cons, hb, hbs]
    rfl

namespace IR

theorem lowerBlock_eq_ok {types : Array Ty} {n : Nat} {b : Block} (h : b.Sound types n) :
    ∃ steps, List.Forall₂ (fun i s => ∀ name, lowerInstr name i = .ok s) b.instrs.toList steps ∧
      lowerBlock b = .ok ⟨steps, lowerTerm b.term⟩ := by
  have hlow (i : Instr) (hi : i ∈ b.instrs.toList) : ∃ s, lowerInstr b.name i = .ok s := by
    obtain ⟨s, hs⟩ := (h.instrs i (Array.mem_toList_iff.1 hi)).lowers
    exact ⟨s, hs b.name⟩
  obtain ⟨steps, hsteps, hall⟩ := mapM_eq_ok hlow
  refine ⟨steps, List.forall₂_iff_get.2 ⟨hall.length_eq, fun i hi hi' name => ?_⟩, ?_⟩
  · obtain ⟨s, hs⟩ := (h.instrs _ (Array.mem_toList_iff.1 (List.get_mem b.instrs.toList ⟨i, hi⟩))).lowers
    have hget := (List.forall₂_iff_get.1 hall).2 i hi hi'
    rw [hs b.name] at hget
    rw [hs name, hget]
  · simp only [lowerBlock, hsteps]
    rfl

/-- A sound function without problems can be lowered. -/
theorem Function.lower_eq_ok {f : Function} (h : f.Sound) (hne : f.blocks.isEmpty = false)
    (hp : f.problems = []) :
    ∃ bs, f.lower = .ok ⟨f.numValues, bs.toArray⟩ ∧
      List.Forall₂ (fun b pb => lowerBlock b = .ok pb) f.blocks.toList bs := by
  have hlow (b : Block) (hb : b ∈ f.blocks.toList) : ∃ pb, lowerBlock b = .ok pb := by
    obtain ⟨steps, -, hb⟩ := lowerBlock_eq_ok (h.blocks b (Array.mem_toList_iff.1 hb))
    exact ⟨_, hb⟩
  obtain ⟨bs, hbs, hall⟩ := mapM_eq_ok hlow
  refine ⟨bs, ?_, hall⟩
  unfold Function.lower
  rw [hne, if_neg Bool.false_ne_true, hp]
  simp only [hbs]
  rfl

/-! ## Programs -/

variable {I : σ → Prop} {host : Host σ}

/-- Nothing is asked of the frame. -/
def AnyFrame (_ : Frame) : Prop := True

theorem settled_anyFrame : Settled AnyFrame :=
  ⟨fun _ _ _ _ h => h, fun _ _ h => h, fun _ _ h => h, fun _ _ h => h⟩

theorem keeps_checkFrame (w : Word) : Keeps AnyFrame I (checkFrame w : Act σ Unit) := by
  unfold checkFrame
  split
  · exact .pure _
  · exact .throw (by simp)

theorem keeps_exec (hh : HostKeeps I host) (s : Step) (regs : Registers) :
    Keeps AnyFrame I (s.exec host regs) := by
  cases s with
  | const r n => exact .pure _
  | add r x y => exact .pure _
  | loadLocals r f | loadStack r f | loadIndex r f =>
    exact (keeps_checkFrame _).bind fun _ => Keeps.frame.bind fun _ => .pure _
  | storeLocals f x | storeStack f x | storeIndex f x =>
    exact (keeps_checkFrame _).bind fun _ => (Keeps.modifyFrame fun _ _ => trivial).bind fun _ => .pure _
  | loadElem r s i => exact (Keeps.readSlot _ _).bind fun _ => .pure _
  | storeElem s i x => exact (Keeps.writeSlot settled_anyFrame _ _ _).bind fun _ => .pure _
  | call r routine args => exact (Keeps.routine settled_anyFrame hh routine _).bind fun _ => .pure _

theorem keeps_execSteps (hh : HostKeeps I host) (ss : List Step) (regs : Registers) :
    Keeps AnyFrame I (execSteps host ss regs) := by
  induction ss generalizing regs with
  | nil => exact .pure _
  | cons s ss ih => exact (keeps_exec hh s regs).bind fun regs => ih regs

theorem Program.keeps_run (hh : HostKeeps I host) (p : Program) (fuel i : Nat) (regs : Registers) :
    Keeps AnyFrame I (p.run host fuel i regs) := by
  induction fuel generalizing i regs with
  | zero => exact fun _ hF hi => ⟨by simp, hF, hi⟩
  | succ fuel ih =>
    intro mc hF hi
    unfold Ends Program.run
    cases p.blocks[i]? with
    | none => exact ⟨by simp, hF, hi⟩
    | some b =>
      simp only
      have hsteps := keeps_execSteps hh b.steps regs mc hF hi
      cases hexec : execSteps host b.steps regs mc with
      | error f mc' => exact hsteps.error hexec
      | ok regs' mc' =>
        obtain ⟨hF', hi'⟩ := hsteps.ok hexec
        simp only
        cases b.exit.leave regs' with
        | goto j => exact ih j regs' mc' hF' hi'
        | done v => exact ⟨hF', hi'⟩
        | trapped t => exact ⟨by simp, hF', hi'⟩

theorem Program.keeps_start (hh : HostKeeps I host) (p : Program) (fuel : Nat) :
    Keeps AnyFrame I (p.start host fuel) :=
  Keeps.frame.bind fun _ => p.keeps_run hh fuel _ _

end IR

/-! ## Engines -/

namespace Run

open IR

variable {fuel : Nat} {s : Store World}

/-- Whether defects of methods stay inside calls. -/
def Lenient (w : World) : Prop := w.strict = false

/-- The action never fails with a defect of a method and keeps the world lenient. -/
def Contains (x : Run α) : Prop := ∀ s : Store World, Lenient s.host →
  Ends x s (fun f s' => (∀ c, f ≠ .code c) ∧ Lenient s'.host) fun _ s' => Lenient s'.host

namespace Contains

theorem pure (a : α) : Contains (pure a : Run α) := fun _ h => h

theorem throw {f : Fault} (hf : ∀ c, f ≠ .code c) : Contains (throw f : Run α) := fun _ h => ⟨hf, h⟩

theorem bind {x : Run α} {f : α → Run β} (hx : Contains x) (hf : ∀ a, Contains (f a)) :
    Contains (x >>= f) := fun s h => (hx s h).bind fun a s' h' => hf a s' h'

theorem world : Contains world := fun _ h => h

theorem modifyWorld {f : World → World} (hf : ∀ w, Lenient w → Lenient (f w)) :
    Contains (modifyWorld f) := fun s h => hf s.host h

theorem onHeap {x : HeapM α} (hx : Codeless x) : Contains (onHeap x) := by
  rintro ⟨heap, w⟩ hw
  have hx := hx heap
  unfold Ends at hx ⊢
  unfold Run.onHeap onStoredHeap
  cases hxh : x heap with
  | ok a h =>
    simp only [hxh]
    exact hw
  | error f h =>
    simp only [hxh] at hx ⊢
    exact ⟨hx, hw⟩

theorem catching {x : Run α} (hx : Contains x) : Contains (catching x) := by
  intro s hs
  have hx := hx s hs
  unfold Ends MethodJit.catching
  cases hrun : x s with
  | ok a s₁ => exact hx.ok hrun
  | error f s₁ =>
    have hf := hx.error hrun
    cases f with
    | thrown v => exact hf.2
    | _ => exact hf

theorem log (m : Method) (lines : List LogLine) : Contains (log m lines) := modifyWorld fun _ h => h

theorem methodAt (i : Nat) : Contains (methodAt i) := by
  refine world.bind fun w => ?_
  split
  · exact pure _
  · exact throw (by simp)

theorem engineAt (i : Nat) : Contains (engineAt i) := by
  refine world.bind fun w => ?_
  split
  · exact pure _
  · exact throw (by simp)

theorem foreignAt (i : Nat) : Contains (foreignAt i) := by
  refine world.bind fun w => ?_
  split
  · exact pure _
  · exact throw (by simp)

theorem leave (m : Method) (why : CodeFault) : Contains (leave m why) :=
  (log _ _).bind fun _ => pure _

/-- The function of an accepted method can be lowered. -/
theorem lower (config : EngineConfig) {m : Method} (h : (Compiler.generate m).fault = none) :
    Contains (lower config m (Compiler.generate m).function) := by
  obtain ⟨e, hf, heq⟩ := Compiler.finished_of_generate h
  rw [heq]
  obtain ⟨bs, hlower, -⟩ := e.function.lower_eq_ok hf.arrived.sound.function hf.isEmpty hf.problems
  unfold Run.lower
  rw [hlower]
  simp only
  split
  · refine (modifyWorld ?_).bind fun _ => (log _ _).bind fun _ => pure _
    exact fun _ h => h
  · exact (log _ _).bind fun _ => pure _

theorem generate (config : EngineConfig) (m : Method) : Contains (generate config m) := by
  refine (log _ _).bind fun _ => ?_
  split
  · exact lower config (by assumption)
  · intro s hs
    rw [ends_bind]
    change Ends (if s.host.strict = true then _ else _) s _ _
    rw [hs, if_neg Bool.false_ne_true]
    exact leave m _ s hs
  · rename_i f hcode hfault
    exact throw hcode

theorem compileWith (config : EngineConfig) (m : Method) : Contains (compileWith config m) := by
  unfold Run.compileWith
  split
  · exact pure _
  · split
    · exact leave _ _
    · split
      · exact leave _ _
      · exact generate config m

theorem compile (engine method : Nat) : Contains (compile engine method) := by
  refine (methodAt method).bind fun m => world.bind fun w => ?_
  split
  · exact pure _
  · refine (engineAt engine).bind fun e => (compileWith e.config m).bind fun c => world.bind fun _ =>
      (modifyWorld ?_).bind fun _ => pure _
    exact fun _ h => h

end Contains

/-- Only interpreted methods show defects, and running either kind keeps the world lenient. -/
theorem execute_ends {host : Host World} (hh : HostKeeps Lenient host) (c : Compiled) {m : Method}
    {mc : Machine World} (hs : Interpreter.Steady m mc.frame) (hw : Lenient mc.host) :
    Ends (execute host fuel c) mc
      (fun f mc' => (∀ e, settle c (.error f) ≠ .error (.code e)) ∧ Lenient mc'.host)
      fun _ mc' => Lenient mc'.host := by
  cases c with
  | native g p =>
    refine Ends.bind (Q := fun _ mc' => Lenient mc'.host) ?_ fun _ _ h => ends_pure _ |>.2 h
    refine (p.keeps_start hh fuel mc trivial hw).mono (fun f mc' ⟨hf, _, hw'⟩ => ⟨fun e => ?_, hw'⟩)
      fun _ _ h => h.2
    cases f with
    | code c => exact absurd rfl (hf c)
    | _ => simp [settle]
  | interpreted why =>
    have hset (f : Fault) (e : CodeFault) : settle (.interpreted why) (.error f) ≠ .error (.code e) := by
      cases f <;> simp [settle]
    unfold execute Interpreter.interpret
    refine Interpreter.reporting_ends ?_ fun c mc' h => ⟨hset _, h.2⟩
    refine ((Keeps.bindArguments (Interpreter.settled_steady m) mc hs hw).mono
      (fun f mc' h => ⟨hset f, h.2.2⟩) fun _ _ h => h).bind fun _ mc₁ ⟨hs₁, hw₁⟩ => ?_
    rw [ends_bind, ends_frame, hs₁.1]
    exact (Interpreter.run_ends hh hs₁ hw₁ fuel 0).mono (fun f _ h => ⟨hset f, h⟩) fun _ _ h => h

theorem contains_invoke {host : Host World} (hh : HostKeeps Lenient host) (c : Compiled) {m : Method}
    {f : Frame} (hf : Interpreter.Steady m f) : Contains (invoke host fuel c f) := by
  intro s hs
  unfold invoke
  rw [ends_inFrame, ends_bind, ends_attempt]
  -- Whatever came of the run, the frame is given up, and then the outcome is settled.
  have hsettle (r : Except Fault Value) (hr : ∀ e, settle c r ≠ .error (.code e)) (mc : Machine World)
      (hw : Lenient mc.host) :
      Ends (do releaseFrame; ofExcept (settle c r)) mc
        (fun f mc' => (∀ c, f ≠ .code c) ∧ Lenient mc'.host) fun _ mc' => Lenient mc'.host := by
    refine ((Keeps.releaseFrame settled_anyFrame mc trivial hw).mono
      (fun _ _ h => ⟨h.1, h.2.2⟩) fun _ _ h => h.2).bind fun _ mc' hw' => ?_
    cases hsettled : settle c r with
    | ok r => exact hw'
    | error e =>
      refine ⟨fun c hc => hr c ?_, hw'⟩
      rw [hsettled, hc]
  refine Ends.mono (execute_ends hh c hf hs) (fun e mc h => hsettle _ h.1 mc h.2) fun v mc h => ?_
  exact hsettle (.ok v) (fun e he => by cases c <;> cases he) mc h

theorem contains_callWith {host : Host World} (hh : HostKeeps Lenient host) (engine method : Nat)
    (receiver : Value) (args : List Value) :
    Contains (callWith host fuel engine method receiver args) := by
  refine (Contains.compile engine method).bind fun c => (Contains.methodAt method).bind fun m =>
    (Contains.engineAt engine).bind fun e => ?_
  split
  · exact .throw (by simp)
  · exact contains_invoke hh c (Interpreter.steady_make? (by assumption))

theorem contains_apply {host : Host World} (hh : HostKeeps Lenient host) (name : String) (c : Callable)
    (receiver : Value) (args : List Value) : Contains (apply host name c receiver args) := by
  cases c with
  | native n => exact .onHeap (.native n name receiver args)
  | method engine index => exact hh (some engine) index receiver args
  | foreign index => exact hh none index receiver args

/-- A function of the program around reports no defect of a method, if those that it calls report none. -/
theorem contains_foreign {host : Host World} (hh : HostKeeps Lenient host) (f : Foreign) : Contains (f.run host) := by
  induction f with
  | give v => exact .pure v
  | throw v => exact .throw (by simp)
  | stop => exact .throw (by simp)
  | look next ih => exact fun s hs => ih s.heap s hs
  | put heap next ih => exact fun s hs => ih { s with heap } hs
  | call fn receiver args next ih =>
    intro s hs
    rw [Foreign.run, ends_bind, ends_get]
    split
    · exact ((contains_apply hh _ _ receiver args).catching.bind fun outcome => ih outcome) s hs
    · exact ⟨by simp, hs⟩

/-- Functions that are run for scripts never fail with a defect of a method. -/
theorem host_keeps (fuel depth : Nat) : HostKeeps Lenient (host fuel depth) := by
  induction depth with
  | zero => exact fun _ _ _ _ s hs => ⟨by simp, hs⟩
  | succ depth ih =>
    intro engine index receiver args
    cases engine with
    | none => exact (Contains.foreignAt index).bind fun f => contains_foreign ih (f receiver args)
    | some engine =>
      refine (contains_callWith ih engine index receiver args).bind fun r => ?_
      split
      · exact .pure _
      · exact .throw (by simp)
      · exact .onHeap (.raise _ _)

end Run

end MethodJit
