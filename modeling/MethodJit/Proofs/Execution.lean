import MethodJit.Proofs.Simulation

/-!
# Whole runs of a method

A run of a method binds its arguments in a fresh frame and then starts at the beginning of its code, in the
interpreter as in a program. Two runs of the same kind stay joined to their end. A run of the interpreter and
a run of the program do so too, unless one of them is exhausted.
-/

namespace MethodJit

open Compiler IR Interpreter

variable {σ : Type} {K : Origin} {s : Setting} {I : σ → Prop} {keep : Multiset Link} {G : List Link}
  {host : Host σ} {m : Method} {ef : Emitter} {p : Program} {f n : Nat}

/-! ## The entry of a program -/

theorem IR.Function.registers_of_lower {fn : Function} (hp : fn.lower = .ok p) : p.registers = fn.types.size := by
  unfold Function.lower at hp
  split at hp
  · cases hp
  · split at hp
    · cases hblocks : fn.blocks.toList.mapM lowerBlock with
      | error ε =>
        rw [hblocks] at hp
        cases hp
      | ok blocks =>
        rw [hblocks] at hp
        cases hp
        rfl
    · cases hp

/-- A run in a fresh frame binds the arguments first, and goes on as a side of which `N` holds. -/
def Begins (m : Method) (x : Act σ Value) (N : Side σ → Prop) : Prop :=
  ∀ mc V, mc.frame.Shows V → Steady m mc.frame → Resulting bindArguments mc (x mc) N

/-- A program binds the arguments, and then stands where the pass over the code started. -/
theorem begins_start (ha : Accepts m ef) (hfn : ef.function.Sound) (hp : ef.function.lower = .ok p) (f : Nat) :
    Begins m (p.start host (f + 1)) (Side.Resumes host p m ef f 0 0) := by
  obtain ⟨e₀, e₁, v, e, hmake, hstart, hbind, -, -⟩ := id ha
  have harrives := Arrives.start hmake hstart hbind
  have hext := harrives.extended ha
  rw [startBlock_eq hmake] at hstart
  cases hstart
  obtain ⟨hr, -⟩ := ready_entered hmake
  obtain ⟨hissues, -⟩ := (callHelper_spec (E := fun _ _ => True) hr _ (.frame .bindArguments)
    (.cons hr.params.2.2 .nil)).ok hbind
  have hready := hissues.ready hr
  have hpoint : e.builder.point = e₀.entered.builder.point := hissues.emits.point
  have ho : Onward e₀.entered e := Forward.onward hbind
  have hregisters : p.registers = ef.types.size := Function.registers_of_lower hp
  have hle : e.types.size ≤ p.registers := by
    obtain ⟨ts, hts⟩ := hext.grows
    rw [hregisters, hts, Array.size_append]
    exact Nat.le_add_right _ _
  have hslot {i : Nat} {s : Slot} (h : e.locals[i]? = some s) : s = {} := by
    rw [hissues.locals, make?_eq_some hmake] at h
    exact (Array.mem_replicate.1 (Array.mem_of_getElem? h)).2
  intro mc V hV hs
  have hprimed : Primed e₀.entered (p.initialRegisters mc.frame) := by
    have hparams : 3 < e.types.size := (Array.getElem?_eq_some_iff.1 hready.params.2.2).1
    exact (fits_entered hmake hV hs (by omega)).primed
  have hrun : p.start host (f + 1) mc = (execInstrs host (emitted e₀.entered e) (p.initialRegisters mc.frame) >>=
      fun regs => (Side.code host p ef f e regs).run) mc := by
    have hbegin : Extends 0 e₀.entered ef := (hissues.emits.extends hr.isOpen).trans hext
    rw [← Side.code_split ho hpoint hready.toSound hext, ← Side.run_block hfn hp hr.toSound hbegin rfl]
    rfl
  have hperforms : Performs host e₀.entered (p.initialRegisters mc.frame)
      (Emit.callHelper Registry.bindArguments [paramFrame]) bindArguments fun _ _ _ _ => True :=
    performs_effect "bindArguments" (r := .frame .bindArguments) rfl rfl rfl
  have hregs : (p.initialRegisters mc.frame).size = ef.types.size := by
    simp [Program.initialRegisters, hregisters]
  have hstaged := hperforms mc v e hbind (by rw [hregs, ← hregisters]; exact hle)
  cases hexec : execInstrs host (emitted e₀.entered e) (p.initialRegisters mc.frame) mc with
  | error ε mc' =>
    refine ends_of_error (hstaged.error hexec) ?_
    rw [hrun, bind_of_error hexec]
  | ok regs mc' =>
    obtain ⟨hsame, hidle, _, hcall, -⟩ := hstaged.ok hexec
    have hsteady : Steady m mc'.frame :=
      ((Keeps.bindArguments (I := fun _ => True) (settled_steady m) mc hs trivial).ok hcall).1
    refine ends_of_ok hcall fun V' hV' => ⟨Side.code host p ef f e regs, ?_, ⟨hsame.size.trans hregs, V', ?_⟩, ?_⟩
    · rw [hrun, bind_of_ok hexec]
    · refine .of_synced (hprimed.onward ho hsame) hV' ⟨?_, fun s hs => ?_⟩ ?_ ?_ ?_
      · rw [hissues.operands, make?_eq_some hmake]
        rfl
      · obtain ⟨i, hi⟩ := Array.mem_iff_getElem?.1 hs
        rw [hslot hi]
      · have hlocals := hsteady.2
        rw [size_localSlots hV'] at hlocals
        rw [hissues.locals, make?_eq_some hmake]
        change (Array.replicate m.locals.toNatClampNeg ({} : Slot)).size = _
        rw [Array.size_replicate, Int64.toNatClampNeg]
        omega
      · intro i s w hi _ hn
        rw [hslot hi] at hn
        cases hn
      · exact fun i s hi hne => absurd (hslot hi) hne
    · exact Side.code_arrives ha harrives hready.isOpen (Nat.le_refl 0) regs

/-! ## The entry of the interpreter -/

/-- What the interpreter runs, before defects are reported. -/
def Interpreter.body (host : Host σ) (n : Nat) : Act σ Value := do
  bindArguments
  run host (← frame).method.bytes n 0

theorem begins_interpreted (n : Nat) :
    Begins m (Interpreter.body host n) fun T => T = Side.interpreted host m n 0 := by
  intro mc V hV hs
  cases hbind : bindArguments mc with
  | error ε mc' =>
    refine ends_of_error hbind ?_
    unfold Interpreter.body
    rw [bind_of_error hbind]
  | ok _ mc' =>
    have hsteady : Steady m mc'.frame :=
      ((Keeps.bindArguments (I := fun _ => True) (settled_steady m) mc hs trivial).ok hbind).1
    refine ends_of_ok hbind fun V' hV' => ⟨Side.interpreted host m n 0, ?_, ⟨hsteady, V', hV', rfl⟩, rfl⟩
    unfold Interpreter.body
    rw [bind_of_ok hbind]
    change run host mc'.frame.method.bytes n 0 mc' = run host m.bytes n 0 mc'
    rw [hsteady.1]

/-- Two interpreters at the same position. -/
theorem meets_interpreters (hhost : Faithful K I G host) (hG : ∀ l ∈ G, l ∈ keep)
    (hg : Link.pair s.global s.global ∈ keep) (hapart : s.method.EnumeratesApart) (n : Nat) :
    Meets K s I keep (Agree (machineBridge K s I) keep True Gives) (Side.interpreted host s.method n 0)
      (Side.interpreted host s.method n 0) := by
  intro mc mc' habreast
  have hj := habreast.joined (fun _ hf => hf.2) fun _ hf => hf.2
  have htwin := twin_run (I := I) hhost (fun _ hl => List.mem_cons_of_mem _ hl) List.mem_cons_self hapart n .start
  refine htwin keep mc mc' ?_ ((zero_add keep).symm ▸ hj)
  intro l hl
  rcases List.mem_cons.1 hl with rfl | hl
  · exact hg
  · exact hG l hl

/-! ## Runs in fresh frames -/

section Fresh

variable {receiver receiver' global : Value} {cs : List (Value × Value)} {fr fr' : Frame} {h h' : Heap} {st : σ}
  {Φ : EStateM.Result Fault (Machine σ) Value → EStateM.Result Fault (Machine σ) Value → Prop}

theorem Frame.shows_make? {args : List Value} (hmake : Frame.make? m receiver args global = some fr) :
    ∃ V, fr.Shows V := by
  obtain ⟨rfl, hlocals, hstack⟩ := Frame.eq_freshFrame hmake
  rw [← m.freshFrame_withLocals]
  exact ⟨_, Method.shows_freshFrame List.length_replicate hlocals hstack⟩

/-- A fresh frame holds nothing. -/
theorem Machine.owns_make? {args : List Value} (hmake : Frame.make? m receiver args global = some fr)
    {own : Multiset Value} (ho : MethodJit.Owns own h) : Machine.Owns own ⟨h, fr, st⟩ := by
  obtain ⟨rfl, hlocals, hstack⟩ := Frame.eq_freshFrame hmake
  refine ⟨List.replicate m.locals.toNatClampNeg .unbound, [], [], ?_, ho.of_le ?_⟩
  · rw [← m.freshFrame_withLocals]
    exact (Method.shows_freshFrame List.length_replicate hlocals hstack).toHolds
  · rw [sum_refs_eq]
    simp [Value.isBound]

variable (hvalid : m.problem? = none) (hmake : Frame.make? m receiver (cs.map (·.1)) global = some fr)
  (hmake' : Frame.make? m receiver' (cs.map (·.2)) global = some fr') (hI : I st) (hl : Linked K keep h h')
  (hr : Link.pair receiver receiver' ∈ keep) (hcs : ∀ p ∈ cs, Link.pair p.1 p.2 ∈ keep)

include hvalid hmake hmake' hI hl hr hcs

/-- Two runs in fresh frames with linked receivers and arguments. -/
theorem Begins.meet {x y : Act σ Value} {N N' : Side σ → Prop}
    (hΦ : ∀ r r', Agree (machineBridge K (m.setting global) I) keep True Gives r r' → Φ r r')
    (hx : Begins m x N) (hy : Begins m y N')
    (hnext : ∀ T T', N T → N' T' → Meets K (m.setting global) I keep Φ T T') :
    Φ (x ⟨h, fr, st⟩) (y ⟨h', fr', st⟩) := by
  obtain ⟨V, hV⟩ := Frame.shows_make? hmake
  obtain ⟨V', hV'⟩ := Frame.shows_make? hmake'
  have hbind : Agree (machineBridge K (m.setting global) I) keep True Done (bindArguments ⟨h, fr, st⟩)
      (bindArguments ⟨h', fr', st⟩) := agree_bindArguments hvalid hmake hmake' hI hl hr hcs
  exact Resulting.meet hΦ hbind (hx _ V hV (steady_make? hmake)) (hy _ V' hV' (steady_make? hmake')) hnext

variable (hhost : Faithful K I G host) (hG : ∀ l ∈ G, l ∈ keep) (hg : Link.pair global global ∈ keep)
  (hapart : m.EnumeratesApart)

include hhost hG hg hapart

/-- The method is interpreted in lockstep. -/
theorem agree_body (n : Nat) :
    Agree (machineBridge K (m.setting global) I) keep True Gives (Interpreter.body host n ⟨h, fr, st⟩)
      (Interpreter.body host n ⟨h', fr', st⟩) := by
  refine Begins.meet hvalid hmake hmake' hI hl hr hcs (fun _ _ h => h) (begins_interpreted n) (begins_interpreted n) ?_
  rintro _ _ rfl rfl
  have hmeets : Meets K (m.setting global) I keep (Agree (machineBridge K (m.setting global) I) keep True Gives)
      (Side.interpreted host (m.setting global).method n 0) (Side.interpreted host (m.setting global).method n 0) :=
    meets_interpreters hhost hG hg hapart n
  exact hmeets

variable (ha : Accepts m ef) (hfn : ef.function.Sound) (hp : ef.function.lower = .ok p)

include ha hfn hp

/-- The program of the method is run in lockstep. -/
theorem agree_start (k : Nat) :
    Agree (machineBridge K (m.setting global) I) keep True Gives (p.start host k ⟨h, fr, st⟩)
      (p.start host k ⟨h', fr', st⟩) := by
  cases k with
  | zero => exact ⟨Machine.owns_make? hmake hl.owns_left, Machine.owns_make? hmake' hl.owns_right⟩
  | succ f =>
    refine Begins.meet hvalid hmake hmake' hI hl hr hcs (fun _ _ h => h) (begins_start ha hfn hp f)
      (begins_start ha hfn hp f) ?_
    intro T T' hT hT'
    have hblock (pos : Nat) (b : BlockId) (regs regs' : IR.Registers) (hb : ef.blocks.get? pos = some b)
        (hregs : Furnished ef regs) (hregs' : Furnished ef regs') :
        Meets K (m.setting global) I keep (Agree (machineBridge K (m.setting global) I) keep True Gives)
          (Side.block host p m f b.toNat regs) (Side.block host p m f b.toNat regs') :=
      meets_block ha hfn hp hapart hhost hG hg hb hregs hregs'
    refine meets_resumes (fun _ _ h => h) ?_ hblock hT hT'
    intro pos e e' regs regs' _ hst hst'
    exact meets_code ha hapart hhost hG hg (fun _ _ h => h) hblock (Nat.le_add_left _ _) regs regs' hst hst'

end Fresh

end MethodJit
