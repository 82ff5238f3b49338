import MethodJit.Proofs.Execution
import MethodJit.Proofs.ForeignFunctions

/-!
# Engines in lockstep

Engines compile methods without touching the heap, so that two calls of a method run what came of the same
compilation. They stay joined until their frames have been given up, and end alike. By induction on the number
of calls that can be active at a time, the functions of engines are run in lockstep, which is what was assumed
of the host so far.
-/

namespace MethodJit

open Compiler IR Interpreter

variable {α β : Type} {I : World → Prop} {w : World} {m : Method} {methods : Array Method} {G : List Link}

/-! ## Compilation -/

/-- What came of the compilation of the method: if it is a program, then it is the one that is generated. -/
def Compiled.Of (m : Method) : Compiled → Prop
  | .interpreted _ => True
  | .native f p => (Compiler.generate m).fault = none ∧ f = (Compiler.generate m).function ∧ f.lower = .ok p

/-- A world with these methods, in which what is kept of compilations is right, the global objects of engines are
among the links and the functions of the program around are obliging. -/
structure World.Hosts (methods : Array Method) (G : List Link) (w : World) : Prop where
  same : w.methods = methods
  compiled : ∀ (i : Nat) m c, methods[i]? = some m → (w.compiled[i]?).bind Once.held = some c → c.Of m
  globals : ∀ e ∈ w.engines, Link.pair e.global e.global ∈ G
  foreign : ∀ f ∈ w.foreign, Foreign.Obliging f

namespace Run

/-- The action does not touch the heap: it succeeds, leaves its bounds or reports a defect of a method. -/
def Aside (I : World → Prop) (w : World) (x : Run α) (Q : α → Prop) : Prop :=
  (∃ a w', (∀ h, x ⟨h, w⟩ = .ok a ⟨h, w'⟩) ∧ I w' ∧ Q a) ∨
    ∃ ε w', (∀ h, x ⟨h, w⟩ = .error ε ⟨h, w'⟩) ∧ I w' ∧ (ε = .bounds ∨ ∃ c, ε = .code c)

namespace Aside

variable {Q : α → Prop} {x : Run α}

theorem pure {a : α} (hw : I w) (ha : Q a) : Aside I w (pure a : Run α) Q := .inl ⟨a, w, fun _ => rfl, hw, ha⟩

theorem bounds (hw : I w) : Aside I w (throw .bounds : Run α) Q := .inr ⟨.bounds, w, fun _ => rfl, hw, .inl rfl⟩

theorem code (hw : I w) (e : CodeFault) : Aside I w (throw (.code e) : Run α) Q :=
  .inr ⟨.code e, w, fun _ => rfl, hw, .inr ⟨e, rfl⟩⟩

theorem bind {f : α → Run β} {R : β → Prop} (hx : Aside I w x Q) (hf : ∀ a w', I w' → Q a → Aside I w' (f a) R) :
    Aside I w (x >>= f) R := by
  rcases hx with ⟨a, w', hx, hw', ha⟩ | ⟨ε, w', hx, hw', hε⟩
  · rcases hf a w' hw' ha with ⟨b, w'', hb, hrest⟩ | ⟨ε, w'', hb, hrest⟩
    · exact .inl ⟨b, w'', fun h => (bind_of_ok (hx h)).trans (hb h), hrest⟩
    · exact .inr ⟨ε, w'', fun h => (bind_of_ok (hx h)).trans (hb h), hrest⟩
  · exact .inr ⟨ε, w', fun h => bind_of_error (hx h), hw', hε⟩

theorem world (hw : I w) : Aside I w Run.world I := .inl ⟨w, w, fun _ => rfl, hw, hw⟩

theorem modifyWorld {f : World → World} (hw : I (f w)) : Aside I w (modifyWorld f) fun _ => True :=
  .inl ⟨(), f w, fun _ => rfl, hw, trivial⟩

end Aside

variable {config : EngineConfig}

theorem aside_log (hw : w.Hosts methods G) (m : Method) (lines : List LogLine) :
    Aside (World.Hosts methods G) w (log m lines) fun _ => True := by
  unfold log
  exact .modifyWorld ⟨hw.same, hw.compiled, hw.globals, hw.foreign⟩

theorem aside_leave (hw : w.Hosts methods G) (m : Method) (why : CodeFault) :
    Aside (World.Hosts methods G) w (leave m why) (Compiled.Of m) :=
  (aside_log hw _ _).bind fun _ _ hw _ => .pure hw trivial

theorem aside_lower (hw : w.Hosts methods G) (hgen : (Compiler.generate m).fault = none) :
    Aside (World.Hosts methods G) w (lower config m (Compiler.generate m).function) (Compiled.Of m) := by
  unfold lower
  cases hlower : (Compiler.generate m).function.lower with
  | error e => exact (aside_log hw _ _).bind fun _ _ hw _ => .code hw _
  | ok p =>
    simp only
    split
    · refine (Aside.modifyWorld ?_).bind fun _ _ hw _ => (aside_log hw _ _).bind fun _ _ hw _ =>
        .pure hw ⟨hgen, rfl, hlower⟩
      exact ⟨hw.same, hw.compiled, hw.globals, hw.foreign⟩
    · exact (aside_log hw _ _).bind fun _ _ hw _ => .pure hw ⟨hgen, rfl, hlower⟩

/-- Generating code fails with a defect of the method, or because its locals cannot be made. -/
theorem fault_of_generate {ε : Fault} (h : (Compiler.generate m).fault = some ε) :
    ε = .bounds ∨ ∃ c, ε = .code c := by
  unfold Compiler.generate at h
  cases hmake : Emitter.make? m with
  | none =>
    rw [hmake] at h
    cases h
    exact .inl rfl
  | some e =>
    rw [hmake] at h
    simp only at h
    have hspec := method_spec hmake
    cases hrun : Emit.method e with
    | ok _ e' =>
      rw [hrun] at h
      cases h
    | error ε' e' =>
      rw [hrun] at h
      obtain ⟨c, rfl⟩ : ∃ c, ε' = .code c := hspec.error hrun
      cases h
      exact .inr ⟨_, rfl⟩

theorem aside_generate (hw : w.Hosts methods G) (config : EngineConfig) (m : Method) :
    Aside (World.Hosts methods G) w (generate config m) (Compiled.Of m) := by
  unfold generate
  refine (aside_log hw _ _).bind fun _ w hw _ => ?_
  cases hfault : (Compiler.generate m).fault with
  | none => exact aside_lower hw hfault
  | some ε =>
    rcases fault_of_generate hfault with rfl | ⟨c, rfl⟩
    · exact .bounds hw
    · refine (Aside.world hw).bind fun w' w hw _ => ?_
      split
      · exact .code hw c
      · exact aside_leave hw m c

theorem aside_compileWith (hw : w.Hosts methods G) (config : EngineConfig) (m : Method) :
    Aside (World.Hosts methods G) w (compileWith config m) (Compiled.Of m) := by
  unfold compileWith
  split
  · exact .pure hw trivial
  · split
    · exact aside_leave hw m _
    · split
      · exact aside_leave hw m _
      · exact aside_generate hw config m

theorem aside_methodAt (hw : w.Hosts methods G) (i : Nat) :
    Aside (World.Hosts methods G) w (methodAt i) fun m => methods[i]? = some m := by
  refine (Aside.world hw).bind fun w' w hw hw' => ?_
  rw [hw'.same]
  cases hm : methods[i]? with
  | none => exact .bounds hw
  | some m => exact .pure hw rfl

theorem aside_engineAt (hw : w.Hosts methods G) (i : Nat) :
    Aside (World.Hosts methods G) w (engineAt i) fun e => Link.pair e.global e.global ∈ G := by
  refine (Aside.world hw).bind fun w' w hw hw' => ?_
  cases he : w'.engines[i]? with
  | none => exact .bounds hw
  | some e => exact .pure hw (hw'.globals e (Array.mem_of_getElem? he))

theorem aside_foreignAt (hw : w.Hosts methods G) (i : Nat) :
    Aside (World.Hosts methods G) w (foreignAt i) Foreign.Obliging := by
  refine (Aside.world hw).bind fun w' w hw hw' => ?_
  cases hf : w'.foreign[i]? with
  | none => exact .bounds hw
  | some f => exact .pure hw (hw'.foreign f (Array.mem_of_getElem? hf))

/-- What a place holds once it has been filled. -/
theorem publish_spec (s : Once α) (x : α) :
    (s.publish x).1.held = some (s.publish x).2 ∧ (s.held = some (s.publish x).2 ∨ (s.publish x).2 = x) := by
  unfold Once.publish
  cases hs : s.held with
  | none => exact ⟨rfl, .inr rfl⟩
  | some y => exact ⟨hs, .inl rfl⟩

/-- What is kept of a compilation is what came of it, or what was kept of an earlier one. -/
theorem aside_compile (hw : w.Hosts methods G) (engine method : Nat) :
    Aside (World.Hosts methods G) w (compile engine method) fun c =>
      ∀ m, methods[method]? = some m → c.Of m := by
  refine (aside_methodAt hw method).bind fun m w hw hm => ?_
  have honly {c : Compiled} (hc : c.Of m) (m' : Method) (hm' : methods[method]? = some m') : c.Of m' := by
    rw [hm] at hm'
    cases hm'
    exact hc
  refine (Aside.world hw).bind fun w' w hw hw' => ?_
  cases hheld : (w'.compiled[method]?).bind Once.held with
  | some c => exact .pure hw (hw'.compiled method · c · hheld)
  | none =>
    refine (aside_engineAt hw engine).bind fun e w hw _ => (aside_compileWith hw e.config m).bind fun c w hw hc =>
      (Aside.world hw).bind fun w' w hw hw' => ?_
    obtain ⟨hheld, hfrom⟩ := publish_spec ((w'.compiled[method]?).getD {}) c
    dsimp only
    generalize ((w'.compiled[method]?).getD {}).publish c = place at hheld hfrom ⊢
    obtain ⟨slot, c'⟩ := place
    have hof : c'.Of m := by
      rcases hfrom with hold | rfl
      · refine hw'.compiled method m c' hm ?_
        cases hslot : w'.compiled[method]? with
        | none =>
          rw [hslot] at hold
          cases hold
        | some slot =>
          rw [hslot] at hold
          exact hold
      · exact hc
    refine (Aside.modifyWorld ?_).bind fun _ w hw _ => .pure hw (honly hof)
    refine ⟨hw.same, fun i m' d hm' hd => ?_, hw.globals, hw.foreign⟩
    change ((w.compiled.setIfInBounds method slot)[i]?).bind Once.held = some d at hd
    rw [Array.getElem?_setIfInBounds] at hd
    split at hd
    · rename_i heq
      subst heq
      split at hd
      · obtain rfl : c' = d := Option.some.inj (hheld.symm.trans hd)
        exact honly hof m' hm'
      · cases hd
    · exact hw.compiled i m' d hm' hd

end Run

/-! ## Running what came of a compilation -/

section Execution

variable {σ : Type} {K : Origin} {s : Setting} {keep : Multiset Link}

/-- Defects are reported alike. -/
theorem Agree.reporting {I : σ → Prop} {x y : Act σ Value} {mc mc' : Machine σ}
    (h : Agree (machineBridge K s I) keep True Gives (x mc) (y mc')) :
    Agree (machineBridge K s I) keep True Gives (reporting x mc) (reporting y mc') := by
  unfold Interpreter.reporting
  generalize x mc = rx at h ⊢
  generalize y mc' = ry at h ⊢
  cases h.cases with
  | ok hr => exact hr
  | bounds hl => exact .of_bounds hl
  | endless hl hr | exhausted hl hr => exact ⟨hl, hr⟩
  | thrown ht hj => exact ⟨ht, hj⟩
  | code ht hj => exact ⟨ht, rfl, hj⟩

theorem Machine.Joined.bound {I : σ → Prop} {P : Multiset Link} {mc mc' : Machine σ} {v w : Value}
    (hj : Machine.Joined K s I P mc mc') (hm : Link.pair v w ∈ P) : v ≠ .unbound ∧ w ≠ .unbound := by
  obtain ⟨G, ψ, ψ', Q, hb, hQ⟩ := hj.exists_bond
  have hc := hb.counterpart (hQ _ hm)
  exact ⟨hc.left.ne_unbound, hc.right.ne_unbound⟩

/-- The function of an accepted method is sound. -/
theorem accepted_of_generate (h : (Compiler.generate m).fault = none) :
    ∃ ef, Accepts m ef ∧ ef.function.Sound ∧ (Compiler.generate m).function = ef.function := by
  obtain ⟨ef, ha, hef⟩ := accepts_of_generate h
  obtain ⟨e, hfinished, he⟩ := finished_of_generate h
  refine ⟨ef, ha, ?_, hef⟩
  rw [← hef, he]
  exact hfinished.arrived.sound.function

variable {I : World → Prop} {receiver receiver' global : Value} {cs : List (Value × Value)} {fr fr' : Frame}
  {h h' : Heap} {host : Host World} {fuel : Nat} {c : Compiled}
  (hvalid : m.problem? = none) (hmake : Frame.make? m receiver (cs.map (·.1)) global = some fr)
  (hmake' : Frame.make? m receiver' (cs.map (·.2)) global = some fr') (hI : I w) (hl : Linked K keep h h')
  (hr : Link.pair receiver receiver' ∈ keep) (hcs : ∀ p ∈ cs, Link.pair p.1 p.2 ∈ keep)
  (hhost : Faithful K I G host) (hG : ∀ l ∈ G, l ∈ keep) (hg : Link.pair global global ∈ keep)
  (hapart : m.EnumeratesApart)

include hvalid hmake hmake' hI hl hr hcs hhost hG hg hapart

/-- Two calls of a method run what came of the same compilation. -/
theorem agree_execute (hc : c.Of m) :
    Agree (machineBridge K (m.setting global) I) keep True Gives (Run.execute host fuel c ⟨h, fr, w⟩)
      (Run.execute host fuel c ⟨h', fr', w⟩) := by
  cases c with
  | interpreted why =>
    exact (agree_body hvalid hmake hmake' hI hl hr hcs hhost hG hg hapart fuel).reporting
  | native f p =>
    obtain ⟨hgen, rfl, hp⟩ := hc
    obtain ⟨ef, ha, hfn, hef⟩ := accepted_of_generate hgen
    rw [hef] at hp
    have hstart := agree_start hvalid hmake hmake' hI hl hr hcs hhost hG hg hapart ha hfn hp fuel
    refine hstart.bind fun v v' P mc mc' hP hj => ?_
    obtain rfl : P = {Link.pair v v'} := hP
    obtain ⟨hv, hv'⟩ := hj.bound (Multiset.mem_add.2 (.inl (Multiset.mem_singleton_self _)))
    rw [if_pos (isBound_of_ne hv), if_pos (isBound_of_ne hv')]
    exact ⟨_, rfl, hj⟩

end Execution

/-! ## Calls -/

/-- Two calls that end the same way, with what they give. -/
inductive Run.CallsAlike : Except CallFault Value → Except CallFault Value → Multiset Link → Prop
  | value (v w : Value) : CallsAlike (.ok v) (.ok w) {Link.pair v w}
  | thrown (v w : Value) : CallsAlike (.error (.thrown v)) (.error (.thrown w)) {Link.pair v w}
  | code (e : CodeFault) : CallsAlike (.error (.code e)) (.error (.code e)) 0

section Calls

open Run

variable {K : Origin} {keep : Multiset Link} {host : Host World} {fuel : Nat} {c : Compiled} {fr fr' : Frame}
  {h h' : Heap} {mc mc₁ mc' mc₁' : Machine World}

theorem inFrame_eq {σ : Type} (fr : Frame) (x : Act σ α) (st : Store σ) :
    inFrame fr x st = within (fun mc => ⟨mc.heap, mc.host⟩) (x ⟨st.heap, fr, st.host⟩) := by
  obtain ⟨heap, host⟩ := st
  unfold inFrame within
  dsimp only
  cases x ⟨heap, fr, host⟩ <;> rfl

theorem invoke_of_ok {v : Value} (hrun : execute host fuel c ⟨h, fr, w⟩ = .ok v mc)
    (hrelease : releaseFrame mc = .ok () mc₁) :
    invoke host fuel c fr ⟨h, w⟩ = .ok (.ok v) ⟨mc₁.heap, mc₁.host⟩ := by
  have hsettle : settle c (.ok v) = .ok (.ok v) := by cases c <;> rfl
  rw [invoke, inFrame_eq, bind_of_ok (attempt_of_ok hrun), bind_of_ok hrelease, hsettle]
  rfl

theorem invoke_of_error {ε : Fault} (hrun : execute host fuel c ⟨h, fr, w⟩ = .error ε mc)
    (hrelease : releaseFrame mc = .ok () mc₁) :
    invoke host fuel c fr ⟨h, w⟩ = match settle c (.error ε) with
      | .ok r => .ok r ⟨mc₁.heap, mc₁.host⟩
      | .error ε' => .error ε' ⟨mc₁.heap, mc₁.host⟩ := by
  rw [invoke, inFrame_eq, bind_of_ok (attempt_of_error hrun), bind_of_ok hrelease]
  cases settle c (.error ε) <;> rfl

/-- A run that is not followed any further gives up its frame. -/
theorem invoke_aborts {ε : Fault} {own : Multiset Value} (hrun : execute host fuel c ⟨h, fr, w⟩ = .error ε mc)
    (hε : ε = .bounds ∨ ε = .endless ∨ ε = .exhausted) (ho : mc.Owns own) :
    ∃ st, invoke host fuel c fr ⟨h, w⟩ = .error ε st ∧ Owns own st.heap := by
  obtain ⟨mc₁, hrelease, -, ho⟩ := ho.releaseFrame
  refine ⟨⟨mc₁.heap, mc₁.host⟩, ?_, ho⟩
  rw [invoke_of_error hrun hrelease]
  rcases hε with rfl | rfl | rfl <;> cases c <;> rfl

/-- Two runs that end alike give up their frames and settle alike. -/
theorem agree_invoke {s : Setting}
    (hagree : Agree (machineBridge K s I) keep True Gives (execute host fuel c ⟨h, fr, w⟩)
      (execute host fuel c ⟨h', fr', w⟩)) :
    Agree (storeBridge K I) keep True CallsAlike (invoke host fuel c fr ⟨h, w⟩) (invoke host fuel c fr' ⟨h', w⟩) := by
  generalize hrun : execute host fuel c ⟨h, fr, w⟩ = r at hagree
  generalize hrun' : execute host fuel c ⟨h', fr', w⟩ = r' at hagree
  cases hagree.cases with
  | ok hr =>
    obtain ⟨_, rfl, hj⟩ := hr
    obtain ⟨mc₁, mc₁', hrelease, hrelease', hhost, hI, hl⟩ := hj.releaseFrame
    rw [invoke_of_ok hrun hrelease, invoke_of_ok hrun' hrelease']
    exact ⟨_, .value _ _, hhost, hI, hl⟩
  | bounds ho =>
    obtain ⟨st, hinvoke, ho⟩ := invoke_aborts hrun (by simp) ho
    rw [hinvoke]
    exact .of_bounds ho
  | endless ho ho' | exhausted ho ho' =>
    obtain ⟨st, hinvoke, ho⟩ := invoke_aborts hrun (by simp) ho
    obtain ⟨st', hinvoke', ho'⟩ := invoke_aborts hrun' (by simp) ho'
    rw [hinvoke, hinvoke']
    exact ⟨ho, ho'⟩
  | thrown _ hj =>
    obtain ⟨mc₁, mc₁', hrelease, hrelease', hhost, hI, hl⟩ := Machine.Joined.releaseFrame hj
    rw [invoke_of_error hrun hrelease, invoke_of_error hrun' hrelease']
    cases c <;> exact ⟨_, .thrown _ _, hhost, hI, hl⟩
  | code _ hj =>
    obtain ⟨mc₁, mc₁', hrelease, hrelease', hhost, hI, hl⟩ := Machine.Joined.releaseFrame hj
    rw [invoke_of_error hrun hrelease, invoke_of_error hrun' hrelease']
    cases c with
    | interpreted why => exact ⟨0, .code _, hhost, hI, (zero_add keep).symm ▸ hl⟩
    | native f p => exact ⟨trivial, rfl, hhost, hI, hl⟩

variable {Q : α → Prop} {x : Run α} {borrow : List Link}

/-- Two actions that do not touch the heaps. -/
theorem Run.Aside.twin (hx : ∀ w, I w → Aside I w x Q) :
    Twin (storeBridge K I) borrow 0 True x x fun a b P => a = b ∧ Q a ∧ P = 0 := by
  rintro keep ⟨h, w⟩ ⟨h', w'⟩ - ⟨hhost, hI, hl⟩
  obtain rfl : w = w' := hhost
  rcases hx w hI with ⟨a, w₁, hrun, hI₁, ha⟩ | ⟨ε, w₁, hrun, hI₁, hε⟩
  · rw [hrun, hrun]
    exact ⟨0, ⟨rfl, ha, rfl⟩, rfl, hI₁, hl⟩
  · rw [hrun, hrun]
    rw [zero_add] at hl
    rcases hε with rfl | ⟨e, rfl⟩
    · exact hl.owns_left
    · exact ⟨trivial, rfl, rfl, hI₁, hl⟩

/-- The methods pass their checks, and their enumerations are held by two locals each. -/
def MethodsProper (methods : Array Method) : Prop := ∀ m ∈ methods, m.problem? = none ∧ m.EnumeratesApart

/-- Calls of a method with linked receivers and arguments end alike. -/
theorem twin_callWith (hM : MethodsProper methods) (hhost : Faithful K (World.Hosts methods G) G host)
    (fuel engine method : Nat) (v v' : Value) (cs : List (Value × Value)) :
    Twin (storeBridge K (World.Hosts methods G)) (Link.pair v v' :: (cs.map fun p => Link.pair p.1 p.2) ++ G) 0 True
      (callWith host fuel engine method v (cs.map (·.1))) (callWith host fuel engine method v' (cs.map (·.2)))
      CallsAlike := by
  refine (Aside.twin fun w hw => aside_compile hw engine method).bind ?_
  rintro c _ _ ⟨rfl, hc, rfl⟩
  refine (Aside.twin fun w hw => aside_methodAt hw method).bind ?_
  rintro m _ _ ⟨rfl, hm, rfl⟩
  refine (Aside.twin fun w hw => aside_engineAt hw engine).bind ?_
  rintro e _ _ ⟨rfl, he, rfl⟩
  obtain ⟨hvalid, hapart⟩ := hM m (Array.mem_of_getElem? hm)
  cases hmake : Frame.make? m v (cs.map (·.1)) e.global with
  | none => exact Twin.bounds
  | some fr =>
    -- Whether there is a frame depends on the method only.
    obtain ⟨fr', hmake'⟩ : ∃ fr', Frame.make? m v' (cs.map (·.2)) e.global = some fr' := by
      obtain ⟨hlocals, hstack, hslots, hoperands, -⟩ := Frame.make?_eq_some.1 hmake
      exact ⟨_, Frame.make?_eq_some.2 ⟨hlocals, hstack, hslots, hoperands, rfl⟩⟩
    rw [hmake']
    rintro keep ⟨h, w⟩ ⟨h', w'⟩ hkeep ⟨hsame, hI, hl⟩
    obtain rfl : w = w' := hsame
    rw [zero_add] at hl
    have hG (l : Link) (hmem : l ∈ G) : l ∈ keep := hkeep l (List.mem_append_right _ hmem)
    have hcs (p : Value × Value) (hp : p ∈ cs) : Link.pair p.1 p.2 ∈ keep :=
      hkeep _ (List.mem_append_left _ (List.mem_cons_of_mem _ (List.mem_map_of_mem hp)))
    have hr : Link.pair v v' ∈ keep := hkeep _ (List.mem_append_left _ List.mem_cons_self)
    exact agree_invoke (agree_execute hvalid hmake hmake' hI hl hr hcs hhost hG (hG _ he) hapart (hc m hm))

/-- Functions that are methods of engines or come from the program around are run in lockstep. -/
theorem faithful_host (hM : MethodsProper methods) (K : Origin) (G : List Link) (fuel depth : Nat) :
    Faithful K (World.Hosts methods G) G (Run.host fuel depth) := by
  induction depth with
  | zero =>
    rintro engine index v w cs keep st st' - ⟨-, -, hl⟩
    rw [zero_add] at hl
    exact ⟨hl.owns_left, hl.owns_right⟩
  | succ depth ih =>
    intro engine index v w cs
    cases engine with
    | none =>
      refine (Aside.twin fun w hw => aside_foreignAt hw index).bind ?_
      rintro f _ _ ⟨rfl, hf, rfl⟩
      exact hf World K (World.Hosts methods G) G (Run.host fuel depth) ih v w cs
    | some engine =>
      refine (twin_callWith hM ih fuel engine index v w cs).bind ?_
      intro r r' P hP
      cases hP with
      | value v w => exact fun keep st st' _ hj => ⟨_, rfl, hj⟩
      | thrown v w => exact Twin.thrown (storeBridge_plain K _)
      | code e => exact twin_onStoredHeap (twin_raise _ _)

end Calls

end MethodJit
