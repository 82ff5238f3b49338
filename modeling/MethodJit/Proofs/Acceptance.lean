import MethodJit.Proofs.Defects

/-!
# Accepted methods

A method is accepted if code can be generated for it. The pass over its code then arrives at positions one
after another, and each position is translated or skipped. All successors of a translated position are
translated: a branch makes a block start at its target, a target ahead cannot be skipped, and a target
behind had to be a block when the pass arrived there.
-/

namespace MethodJit.Compiler

open IR Interpreter

variable {e e' ef : Emitter} {m : Method} {pos : Nat}

/-- The pass over the code of the method arrives at a position. -/
inductive Arrives (m : Method) : Nat → Emitter → Prop
  | start {e₀ e₁ e₂ : Emitter} {v : ValueId} (hmake : Emitter.make? m = some e₀)
    (hstart : Emit.startBlock "entry" e₀ = .ok () e₁)
    (hbind : Emit.callHelper Registry.bindArguments [paramFrame] e₁ = .ok v e₂) : Arrives m 0 e₂
  | next {pos next : Nat} {e e₁ e₂ : Emitter} {byte : UInt8} (h : Arrives m pos e)
    (harrive : Emit.arrive pos e = .ok () e₁) (hbyte : m.bytes[pos]? = some byte)
    (hadvance : Emit.advance byte pos e₁ = .ok next e₂) : Arrives m next e₂

/-- The pass translates the instruction at a position: its block has not ended when the pass arrives
there. -/
def Translated (m : Method) (pos : Nat) : Prop :=
  ∃ e e₁ byte next e₂, Arrives m pos e ∧ Emit.arrive pos e = .ok () e₁ ∧
    m.bytes[pos]? = some byte ∧ Emit.build .terminated e₁ = .ok false e₁ ∧
    Emit.advance byte pos e₁ = .ok next e₂

/-- The pass ends in a block that has ended. -/
def Accepts (m : Method) (ef : Emitter) : Prop :=
  ∃ e₀ e₁ v e₂, Emitter.make? m = some e₀ ∧ Emit.startBlock "entry" e₀ = .ok () e₁ ∧
    Emit.callHelper Registry.bindArguments [paramFrame] e₁ = .ok v e₂ ∧
    Emit.codeFrom (m.bytes.size + 1) 0 e₂ = .ok () ef ∧ ¬ ef.Open

theorem Arrives.scanning (h : Arrives m pos e) : e.method = m ∧ Scanning pos e := by
  induction h with
  | start hmake hstart hbind =>
    rw [startBlock_eq hmake] at hstart
    cases hstart
    obtain ⟨hr, hl⟩ := ready_entered hmake
    obtain ⟨h, -⟩ := (callHelper_spec (E := fun _ _ => True) hr _ (.frame .bindArguments)
      (.cons hr.params.2.2 .nil)).ok hbind
    refine ⟨h.emits.method.trans ?_, h.scanning hr hl⟩
    rw [make?_eq_some hmake]
    rfl
  | next _ harrive hbyte hadvance ih =>
    obtain ⟨hm, hscan⟩ := ih
    obtain ⟨hext₁, h₁, -⟩ := (arrive_spec (E := fun _ _ => True) hscan).ok harrive
    have hm₁ := hext₁.method.trans hm
    obtain ⟨⟨hext₂, h₂⟩, -⟩ := (advance_spec h₁ (hm₁ ▸ hbyte)).ok hadvance
    exact ⟨hext₂.method.trans hm₁, h₂⟩

/-- What a pass that ends has done first. -/
theorem codeFrom_eq_ok {fuel : Nat} (h : Emit.codeFrom fuel pos e = .ok () ef) :
    ∃ e₁, Emit.arrive pos e = .ok () e₁ ∧ (e₁.method.bytes[pos]? = none ∧ ef = e₁ ∨
      ∃ byte next e₂ fuel', e₁.method.bytes[pos]? = some byte ∧
        Emit.advance byte pos e₁ = .ok next e₂ ∧ Emit.codeFrom fuel' next e₂ = .ok () ef) := by
  cases fuel with
  | zero => cases h
  | succ fuel =>
    unfold Emit.codeFrom at h
    obtain ⟨⟨⟩, e₁, harrive, h⟩ := bind_eq_ok h
    refine ⟨e₁, harrive, ?_⟩
    obtain ⟨_, _, hget, h⟩ := bind_eq_ok h
    cases hget
    cases hbyte : e₁.method.bytes[pos]? with
    | none =>
      rw [hbyte] at h
      cases h
      exact .inl ⟨rfl, rfl⟩
    | some byte =>
      rw [hbyte] at h
      obtain ⟨next, e₂, hadvance, h⟩ := bind_eq_ok h
      exact .inr ⟨byte, next, e₂, fuel, rfl, hadvance, h⟩

/-- From every position at which it arrives, the pass over an accepted method goes on to its end. -/
theorem Arrives.codeFrom (h : Arrives m pos e) (ha : Accepts m ef) :
    ∃ fuel, Emit.codeFrom fuel pos e = .ok () ef := by
  induction h with
  | start hmake hstart hbind =>
    obtain ⟨e₀, e₁, v, e₂, hmake', hstart', hbind', hcode, -⟩ := ha
    rw [hmake] at hmake'
    cases hmake'
    rw [hstart] at hstart'
    cases hstart'
    rw [hbind] at hbind'
    cases hbind'
    exact ⟨_, hcode⟩
  | next h harrive hbyte hadvance ih =>
    obtain ⟨fuel, hcode⟩ := ih
    obtain ⟨e₁, harrive', hcases⟩ := codeFrom_eq_ok hcode
    rw [harrive] at harrive'
    cases harrive'
    obtain ⟨hm, hscan⟩ := h.scanning
    obtain ⟨hext₁, -, -⟩ := (arrive_spec (E := fun _ _ => True) hscan).ok harrive
    rw [hext₁.method, hm, hbyte] at hcases
    rcases hcases with ⟨hnone, -⟩ | ⟨byte, next, e₂, fuel', hbyte', hadvance', hcode'⟩
    · cases hnone
    · cases hbyte'
      rw [hadvance] at hadvance'
      cases hadvance'
      exact ⟨fuel', hcode'⟩

/-- An arrival in the pass over an accepted method. -/
theorem Arrives.arrived (h : Arrives m pos e) (ha : Accepts m ef) :
    ∃ e₁, Emit.arrive pos e = .ok () e₁ ∧ e₁.method = m ∧ Extends pos e e₁ ∧ Arrived pos e₁ ∧
      (e.Open → e₁.Open) := by
  obtain ⟨hm, hscan⟩ := h.scanning
  obtain ⟨fuel, hcode⟩ := h.codeFrom ha
  obtain ⟨e₁, harrive, -⟩ := codeFrom_eq_ok hcode
  obtain ⟨hext, h₁, hopen⟩ := (arrive_spec (E := fun _ _ => True) hscan).ok harrive
  exact ⟨e₁, harrive, hext.method.trans hm, hext, h₁, hopen⟩

/-- The pass over an accepted method goes on as long as there is code. -/
theorem Arrives.advances (h : Arrives m pos e) (ha : Accepts m ef) {e₁ : Emitter}
    (harrive : Emit.arrive pos e = .ok () e₁) {byte : UInt8} (hbyte : m.bytes[pos]? = some byte) :
    ∃ next e₂, Emit.advance byte pos e₁ = .ok next e₂ := by
  obtain ⟨e₁', harrive', hm, -⟩ := h.arrived ha
  rw [harrive] at harrive'
  cases harrive'
  obtain ⟨fuel, hcode⟩ := h.codeFrom ha
  obtain ⟨e₁', harrive', hcases⟩ := codeFrom_eq_ok hcode
  rw [harrive] at harrive'
  cases harrive'
  rw [hm, hbyte] at hcases
  rcases hcases with ⟨hnone, -⟩ | ⟨byte', next, e₂, -, hbyte', hadvance, -⟩
  · cases hnone
  · cases hbyte'
    exact ⟨next, e₂, hadvance⟩

/-- Where the block has not ended there is an instruction, and it is translated. -/
theorem Arrives.translated (h : Arrives m pos e) (ha : Accepts m ef) {e₁ : Emitter}
    (harrive : Emit.arrive pos e = .ok () e₁) (hopen : e₁.Open) : Translated m pos := by
  obtain ⟨e₁', harrive', hm, -, h₁, -⟩ := h.arrived ha
  rw [harrive] at harrive'
  cases harrive'
  obtain ⟨t, ht, hclosed⟩ := build_terminated h₁.sound
  have ht' : t = false := by
    cases t with
    | false => rfl
    | true => exact absurd hopen (hclosed.1 rfl)
  subst ht'
  cases hbyte : m.bytes[pos]? with
  | some byte =>
    obtain ⟨next, e₂, hadvance⟩ := h.advances ha harrive hbyte
    exact ⟨e, e₁, byte, next, e₂, h, harrive, hbyte, ht, hadvance⟩
  | none =>
    -- The pass has ended here, in a block that has not.
    obtain ⟨fuel, hcode⟩ := h.codeFrom ha
    obtain ⟨e₁', harrive', hcases⟩ := codeFrom_eq_ok hcode
    rw [harrive] at harrive'
    cases harrive'
    rw [hm, hbyte] at hcases
    rcases hcases with ⟨-, rfl⟩ | ⟨byte, next, e₂, -, hbyte', -⟩
    · obtain ⟨-, -, -, -, -, -, -, -, hclosed'⟩ := ha
      exact absurd hopen hclosed'
    · cases hbyte'

/-- A block that starts at the present position is translated. -/
theorem Arrives.translated_of_eq (h : Arrives m pos e) (ha : Accepts m ef) {e₁ : Emitter}
    (harrive : Emit.arrive pos e = .ok () e₁) {id : BlockId} (hid : e₁.blocks.get? pos = some id) :
    Translated m pos := by
  obtain ⟨e₁', harrive', -, -, h₁, -⟩ := h.arrived ha
  rw [harrive] at harrive'
  cases harrive'
  exact h.translated ha harrive (h₁.entered id hid).1

/-- A block that starts ahead will be translated: the pass does not go beyond its start. -/
theorem Arrives.translated_ahead (h : Arrives m pos e) (ha : Accepts m ef) {offset n : Nat}
    {id : BlockId} (hid : e.blocks.get? offset = some id) (hle : pos ≤ offset) (hn : offset ≤ pos + n) :
    Translated m offset := by
  induction n generalizing pos e with
  | zero =>
    obtain ⟨e₁, harrive, -, hext, -, -⟩ := h.arrived ha
    have heq : offset = pos := by omega
    subst heq
    exact h.translated_of_eq ha harrive (hext.map _ _ hid)
  | succ n ih =>
    obtain ⟨e₁, harrive, hm, hext, h₁, -⟩ := h.arrived ha
    have hid₁ := hext.map _ _ hid
    by_cases heq : offset = pos
    · subst heq
      exact h.translated_of_eq ha harrive hid₁
    · have hlast := (h₁.laid.range _ _ hid₁).2
      rw [hm] at hlast
      have hlt : pos < m.bytes.size := by omega
      have hbyte : m.bytes[pos]? = some m.bytes[pos] := Array.getElem?_eq_getElem hlt
      obtain ⟨next, e₂, hadvance⟩ := h.advances ha harrive hbyte
      obtain ⟨⟨hext₂, -⟩, hnext, hvacant⟩ := (advance_spec h₁ (hm ▸ hbyte)).ok hadvance
      have hid₂ := hext₂.map _ _ hid₁
      have := hvacant _ _ hid₂
      exact ih (h.next harrive hbyte hadvance) hid₂ (by omega) (by omega)

/-- A block that starts behind has been translated: the pass makes no blocks behind it. -/
theorem Arrives.translated_behind (h : Arrives m pos e) (ha : Accepts m ef) {offset : Nat}
    {id : BlockId} (hid : e.blocks.get? offset = some id) (hlt : offset < pos) :
    Translated m offset := by
  induction h with
  | start => exact absurd hlt (Nat.not_lt_zero _)
  | @next pos _ _ _ _ _ h harrive hbyte hadvance ih =>
    obtain ⟨e₁', harrive', hm, hext, h₁, -⟩ := h.arrived ha
    rw [harrive] at harrive'
    cases harrive'
    obtain ⟨⟨hext₂, -⟩, hnext, hvacant⟩ := (advance_spec h₁ (hm ▸ hbyte)).ok hadvance
    have hle : offset ≤ pos := by
      have := hvacant _ _ hid
      omega
    have hid₁ := hext₂.old _ _ (by omega) hid
    by_cases heq : offset = pos
    · subst heq
      exact h.translated_of_eq ha harrive hid₁
    · exact ih (hext.old _ _ (by omega) hid₁) (by omega)

/-- Wherever a block starts, the instruction is translated. -/
theorem Arrives.translated_of_block (h : Arrives m pos e) (ha : Accepts m ef) {offset : Nat}
    {id : BlockId} (hid : e.blocks.get? offset = some id) : Translated m offset := by
  by_cases hlt : offset < pos
  · exact h.translated_behind ha hid hlt
  · exact h.translated_ahead ha (n := offset - pos) hid (by omega) (by omega)

/-- What translating the instruction at a position has done. -/
theorem Translated.translates (h : Translated m pos) :
    ∃ byte e₁ next e₂, m.bytes[pos]? = some byte ∧ e₁.method = m ∧ Arrives m next e₂ ∧
      Translates (pos + 1) (pos + 1) (actionOfByte byte) e₁ next e₂ := by
  obtain ⟨e, e₁, byte, next, e₂, h, harrive, hbyte, ht, hadvance⟩ := h
  obtain ⟨hm, hscan⟩ := h.scanning
  obtain ⟨hext, h₁, -⟩ := (arrive_spec (E := fun _ _ => True) hscan).ok harrive
  have hm₁ := hext.method.trans hm
  obtain ⟨t, ht', hclosed⟩ := build_terminated h₁.sound
  rw [ht] at ht'
  cases ht'
  have hopen : e₁.Open := by simpa using hclosed
  refine ⟨byte, e₁, next, e₂, hbyte, hm₁, h.next harrive hbyte hadvance, ?_⟩
  unfold Emit.advance at hadvance
  rw [bind_of_ok ht] at hadvance
  exact ((translate_spec h₁ hopen (hm₁ ▸ hbyte)).ok hadvance).1

theorem Translated.readableAt (h : Translated m pos) : ReadableAt m pos := by
  obtain ⟨byte, e₁, next, e₂, hbyte, rfl, -, h⟩ := h.translates
  refine ⟨byte, hbyte, h.supported, ⟨next, h.reads⟩, h.fixed, fun ha => ?_⟩
  obtain ⟨d, hread, hrange, -⟩ := h.leads ha
  rw [h.extended.method] at hread hrange
  exact ⟨d, next, hread, hrange⟩

/-- The successors of a translated instruction are translated. -/
theorem Translated.successor (h : Translated m pos) (ha : Accepts m ef) {pos' : Nat}
    (hsucc : SuccessorAt m pos pos') : Translated m pos' := by
  obtain ⟨byte, e₁, next, e₂, hbyte, hm, harr, h⟩ := h.translates
  obtain ⟨byte', hbyte', hsucc⟩ := hsucc
  rw [hbyte] at hbyte'
  cases hbyte'
  have hleads (htarget : (actionOfByte byte).hasTarget = true) {d : Int} {next' : Nat}
      (hread : Cursor.s24 ⟨m.bytes, pos + 1⟩ = .ok d ⟨m.bytes, next'⟩) :
      next' = next ∧ (∃ id, e₂.blocks.get? next = some id) ∧
        ∃ id, e₂.blocks.get? (next + d) = some id := by
    obtain ⟨d', hread', -, hids⟩ := h.leads htarget
    rw [h.extended.method, hm, hread] at hread'
    cases hread'
    exact ⟨rfl, hids⟩
  cases hsucc with
  | onward hends hread =>
    have hreads := h.reads
    rw [hm, hread] at hreads
    cases hreads
    obtain ⟨e₃, harrive, -, -, -, hopen⟩ := harr.arrived ha
    exact harr.translated ha harrive (hopen (h.proceeds hends).ready.isOpen)
  | notTaken htarget _ hread =>
    obtain ⟨rfl, ⟨id, hid⟩, -⟩ := hleads htarget hread
    exact harr.translated_of_block ha hid
  | taken htarget hread hrange =>
    obtain ⟨rfl, -, id, hid⟩ := hleads htarget hread
    rw [← Int.toNat_of_nonneg hrange.1] at hid
    exact harr.translated_of_block ha hid
  | switched hswitch _ _ _ => exact absurd hswitch h.supported.2

theorem Accepts.translated_zero (ha : Accepts m ef) : Translated m 0 := by
  obtain ⟨e₀, e₁, v, e₂, hmake, hstart, hbind, -, -⟩ := id ha
  have h : Arrives m 0 e₂ := .start hmake hstart hbind
  rw [startBlock_eq hmake] at hstart
  cases hstart
  obtain ⟨hr, -⟩ := ready_entered hmake
  obtain ⟨hissues, -⟩ := (callHelper_spec (E := fun _ _ => True) hr _ (.frame .bindArguments)
    (.cons hr.params.2.2 .nil)).ok hbind
  obtain ⟨e₃, harrive, -, -, -, hopen⟩ := h.arrived ha
  exact h.translated ha harrive (hopen (hissues.ready hr).isOpen)

/-- A method for which generating code succeeds is accepted. -/
theorem accepts_of_generate (h : (generate m).fault = none) :
    ∃ ef, Accepts m ef ∧ (generate m).function = ef.function := by
  unfold generate at h ⊢
  cases hmake : Emitter.make? m with
  | none =>
    rw [hmake] at h
    cases h
  | some e₀ =>
    rw [hmake] at h
    simp only at h ⊢
    cases hrun : Emit.method e₀ with
    | error f e =>
      rw [hrun] at h
      cases f <;> cases h
    | ok u ef =>
      refine ⟨ef, ?_, rfl⟩
      have hm : e₀.method = m := by rw [make?_eq_some hmake]
      unfold Emit.method at hrun
      obtain ⟨_, _, hget, hrun⟩ := bind_eq_ok hrun
      cases hget
      rw [hm] at hrun
      obtain ⟨⟨⟩, e₁, hstart, hrun⟩ := bind_eq_ok hrun
      obtain ⟨v, e₂, hbind, hrun⟩ := bind_eq_ok hrun
      obtain ⟨⟨⟩, e₃, hcode, hrun⟩ := bind_eq_ok hrun
      have h₂ := (Arrives.start hmake hstart hbind).scanning
      obtain ⟨hext, h₃⟩ := (codeFrom_spec h₂.2 (by rw [h₂.1]; omega)).ok hcode
      rw [← hext.method] at h₃
      obtain ⟨rfl, hfinished⟩ := (finish_spec h₃).ok hrun
      refine ⟨e₀, e₁, v, e₂, hmake, hstart, hbind, hcode, ?_⟩
      rintro ⟨b, hb, h0⟩
      exact hfinished.terminated b (Array.mem_of_getElem? (Function.block?_eq_some.1 hb).2) h0

/-- If generating code for a method succeeds, then interpreting it never reports a defect of the method,
and every instruction that is carried out was translated. -/
theorem interpret_accepted (m : Method) (haccepted : (generate m).fault = none) (receiver : Value)
    (args : List Value) (global : Value) (f : Frame)
    (hf : Frame.make? m receiver args global = some f) (heap : Heap) (w : World)
    (hw : w.strict = false) (fuel depth steps : Nat) :
    (∀ c mc, interpret (Run.host fuel depth) steps ⟨heap, f, w⟩ ≠ .error (.code c) mc) ∧
      ∀ mc, bindArguments ⟨heap, f, w⟩ = .ok () mc → ∀ pos mc',
        Reaches (Run.host fuel depth) m.bytes mc pos mc' → Translated m pos := by
  obtain ⟨ef, ha, -⟩ := accepts_of_generate haccepted
  have hh := Run.host_keeps fuel depth
  have hbind := Keeps.bindArguments (I := Run.Lenient) (settled_steady m) ⟨heap, f, w⟩ (steady_make? hf) hw
  have hreach {mc : Machine World} (hmc : bindArguments ⟨heap, f, w⟩ = .ok () mc) {pos : Nat}
      {mc' : Machine World} (h : Reaches (Run.host fuel depth) m.bytes mc pos mc') :
      Translated m pos ∧ Steady m mc'.frame ∧ Run.Lenient mc'.host :=
    h.of_successor hh (hbind.ok hmc).1 (hbind.ok hmc).2 ha.translated_zero fun _ _ hpos hsucc =>
      hpos.successor ha hsucc
  refine ⟨fun c mc hrun => ?_, fun mc hmc pos mc' h => (hreach hmc h).1⟩
  have hnever : Ends (interpret (Run.host fuel depth) steps) ⟨heap, f, w⟩
      (fun e _ => ∀ c, e ≠ .code c) fun _ _ => True := by
    refine reporting_ends ?_ fun c _ h => absurd rfl (h c)
    unfold Ends
    cases hmc : (bindArguments : Act World Unit) ⟨heap, f, w⟩ with
    | error e mc =>
      rw [bind_of_error hmc]
      exact (hbind.error hmc).1
    | ok u mc =>
      rw [bind_of_ok hmc]
      change Ends (run (Run.host fuel depth) mc.frame.method.bytes steps 0) mc _ _
      rw [(hbind.ok hmc).1.1]
      cases hres : run (Run.host fuel depth) m.bytes steps 0 mc with
      | ok v mc' => exact ends_of_ok hres trivial
      | error e mc' =>
        refine ends_of_error hres ?_
        rcases run_error .start hres with rfl | ⟨pos, mc₁, hr, hstep⟩
        · exact fun _ => nofun
        · obtain ⟨ht, hs, hi⟩ := hreach hmc hr
          exact ((step_ends hh hs hi pos).error hstep).1 ht.readableAt
  exact hnever.error hrun c rfl

/-- A loop, which starts at a label. -/
theorem interpret_accepted_loop :
    let m : Method := { locals := 1, code := some #[0x09, 0x26, 0x12, 0xfa, 0xff, 0xff, 0x47] }
    let f : Frame := { firstSlots := #[.unbound], secondSlots := #[], method := m }
    (generate m).fault = none ∧
      ∀ c mc, interpret (Run.host 100 3) 100 ⟨{}, f, {}⟩ ≠ .error (.code c) mc :=
  have haccepted : (generate (Method.mk "" 0 ⟨0⟩ 0 1
      (some #[0x09, 0x26, 0x12, 0xfa, 0xff, 0xff, 0x47]) none)).fault = none := by decide +kernel
  ⟨haccepted, (interpret_accepted _ haccepted .undefined [] .null _ rfl {} {} rfl 100 3 100).1⟩

end MethodJit.Compiler
