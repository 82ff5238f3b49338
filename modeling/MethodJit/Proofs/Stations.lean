import MethodJit.Proofs.Continuation

/-!
# Stations of the pass over the code

A station is a position at which the pass over the code of an accepted method translates an instruction. A
run of the program that stands at a station carries out the instruction, and then stands at the station that
follows, or at the start of a block.
-/

namespace MethodJit

open Compiler IR Interpreter

namespace Compiler

variable {e e' e₁ ef : Emitter} {m : Method} {pos q : Nat}

/-! ## Arriving -/

/-- Skipping instructions leads to where another one starts. -/
theorem startsAt_skipFrom (fuel : Nat) (hpos : StartsAt e.method.bytes pos) :
    Yields (Emit.skipFrom fuel pos) e fun next _ => StartsAt e.method.bytes next := by
  induction fuel generalizing pos e with
  | zero => trivial
  | succ fuel ih =>
    unfold Emit.skipFrom
    rw [Yields, ends_bind, ends_get]
    cases hbyte : e.method.bytes[pos]? with
    | none => exact hpos
    | some byte =>
      simp only
      split
      · exact hpos
      · refine Ends.bind (Q := fun _ e' => e' = e.noting pos e.log) (ends_of_ok rfl rfl) ?_
        rintro _ _ rfl
        refine (fetch_reads (Cursor.advances_skipInstruction byte)).bind ?_
        rintro ⟨_, next⟩ _ ⟨rfl, hskip⟩
        refine (checkInterior_same pos next).bind ?_
        rintro _ _ rfl
        exact ih (.onward hpos hbyte hskip)

/-- The pass arrives where instructions start. -/
theorem Arrives.startsAt (h : Arrives m pos e) : StartsAt m.bytes pos := by
  induction h with
  | start => exact .start
  | @next pos next e e₁ e₂ byte h harrive hbyte hadvance ih =>
    obtain ⟨hm, hscan⟩ := h.scanning
    obtain ⟨hext, h₁, -⟩ := (arrive_spec (E := fun _ _ => True) hscan).ok harrive
    obtain rfl : e₁.method = m := hext.method.trans hm
    obtain ⟨t, ht, -⟩ := build_terminated h₁.sound
    unfold Emit.advance at hadvance
    rw [bind_of_ok ht] at hadvance
    cases t with
    | true =>
      have hadvance : Emit.skipUnreachable pos e₁ = .ok next e₂ := hadvance
      unfold Emit.skipUnreachable at hadvance
      rw [get_bind] at hadvance
      obtain ⟨last, e₃, hskip, hrest⟩ := bind_eq_ok hadvance
      obtain ⟨_, _, -, hlast⟩ := bind_eq_ok hrest
      cases hlast
      exact (startsAt_skipFrom _ ih).ok hskip
    | false =>
      obtain ⟨last, e₃, hinstr, hrest⟩ := bind_eq_ok hadvance
      obtain ⟨_, _, -, hlast⟩ := bind_eq_ok hrest
      cases hlast
      have hdecodes := (instruction_decodes e₁ byte (pos + 1)).ok hinstr
      have hsupported : (actionOfByte byte).convention ≠ .unsupported := by
        rcases supported_or (actionOfByte byte) with h | h | h
        · exact absurd h hdecodes.readable.supported.2
        · exact absurd h hdecodes.readable.supported.1
        · exact h
      have hskip := Cursor.skip_of_reader hdecodes.reads
      rw [← skipInstruction_eq hsupported] at hskip
      exact .onward ih hbyte hskip

/-- The pass over an accepted method goes on from every position to its end. -/
theorem Arrives.last (h : Arrives m pos e) (ha : Accepts m ef) : ∃ last e', Arrives m last e' ∧
    Emit.arrive last e' = .ok () ef ∧ m.bytes.size ≤ last ∧ pos ≤ last ∧ Extends pos e e' := by
  obtain ⟨n, hn⟩ : ∃ n, m.bytes.size ≤ pos + n := ⟨m.bytes.size, Nat.le_add_left _ _⟩
  induction n generalizing pos e with
  | zero =>
    obtain ⟨e₁, harrive, hm, -⟩ := h.arrived ha
    obtain ⟨fuel, hcode⟩ := h.codeFrom ha
    obtain ⟨e₁', harrive', hcases⟩ := codeFrom_eq_ok hcode
    rw [harrive] at harrive'
    cases harrive'
    rw [hm, Array.getElem?_eq_none (show m.bytes.size ≤ pos from hn)] at hcases
    rcases hcases with ⟨-, rfl⟩ | ⟨_, _, _, _, hbyte, -⟩
    · exact ⟨pos, e, h, harrive, hn, Nat.le_refl _, .refl e⟩
    · cases hbyte
  | succ n ih =>
    obtain ⟨e₁, harrive, hm, hext, h₁, -⟩ := h.arrived ha
    by_cases hlt : pos < m.bytes.size
    · have hbyte : m.bytes[pos]? = some m.bytes[pos] := Array.getElem?_eq_getElem hlt
      obtain ⟨next, e₂, hadvance⟩ := h.advances ha harrive hbyte
      obtain ⟨⟨hext₂, -⟩, hnext, -⟩ := (advance_spec h₁ (hm ▸ hbyte)).ok hadvance
      obtain ⟨last, e', hlast, harrive', hsize, hle, hext'⟩ := ih (h.next harrive hbyte hadvance) (by omega)
      refine ⟨last, e', hlast, harrive', hsize, by omega, ?_⟩
      exact (hext.trans (hext₂.mono (by omega))).trans (hext'.mono (by omega))
    · obtain ⟨last, e', hlast⟩ := ih h (by omega)
      exact ⟨last, e', hlast⟩

theorem Arrives.extended (h : Arrives m pos e) (ha : Accepts m ef) : Extends pos e ef := by
  obtain ⟨last, e', hlast, harrive, -, hle, hext⟩ := h.last ha
  obtain ⟨hext', -⟩ := (arrive_spec (E := fun _ _ => True) hlast.scanning.2).ok harrive
  exact hext.trans (hext'.mono hle)

/-- Wherever a block starts in the end, the instruction is translated. -/
theorem Accepts.translated_of_block (ha : Accepts m ef) {b : BlockId} (hb : ef.blocks.get? (pos : Int) = some b) :
    Translated m pos := by
  obtain ⟨e₀, e₁, v, e₂, hmake, hstart, hbind, -, -⟩ := id ha
  obtain ⟨last, e, hlast, harrive, hsize, -, -⟩ := (Arrives.start hmake hstart hbind).last ha
  obtain ⟨hext, harrived, -⟩ := (arrive_spec (E := fun _ _ => True) hlast.scanning.2).ok harrive
  have hm : ef.method = m := hext.method.trans hlast.scanning.1
  have hle := (harrived.laid.range _ _ hb).2
  rw [hm] at hle
  by_cases heq : pos = last
  · subst heq
    exact hlast.translated_of_eq ha harrive hb
  · exact hlast.translated_of_block ha (hext.old _ _ (by omega) hb)

/-! ## Entering blocks -/

/-- Nothing has been emitted into the block, and nothing is known of the locals. -/
structure Emitter.Blank (e : Emitter) : Prop where
  current : e.current = []
  locals : ∀ s ∈ e.locals, s = {}

theorem resetLocals_eq_ok (h : Emit.resetLocals e = .ok () e') :
    e' = { e with locals := .replicate e.locals.size {} } := by
  unfold Emit.resetLocals at h
  rw [get_bind] at h
  cases hfind : e.locals.findIdx? Slot.dirty with
  | some i =>
    simp only [hfind] at h
    cases h
  | none =>
    simp only [hfind] at h
    cases h
    rfl

/-- Going on in a block that is empty. -/
theorem setPoint_blank {b : BlockId} {name : String} (hb : e.function.block? b = some { name })
    (h : (do
      Emit.build (.setPoint b)
      Emit.resetLocals) e = .ok () e') : e'.Blank ∧ Extends q e e' := by
  have hset : Emit.build (.setPoint b) e = .ok () (e.at b) := rfl
  rw [bind_of_ok hset] at h
  obtain rfl := resetLocals_eq_ok h
  refine ⟨⟨?_, ?_⟩, rfl, .refl _, (Extends.refl (p := q) e).blocks, fun _ _ h => h, fun _ _ _ h => h,
    .of_names rfl fun _ => rfl⟩
  · have hblock : (e.at b).function.block? (e.at b).builder.point = some { name } := hb
    have hcurrent : (e.at b).current = [] := by
      unfold Emitter.current
      rw [hblock]
      rfl
    exact hcurrent
  · intro s hs
    exact (Array.mem_replicate.1 hs).2

/-- A block that is entered is blank, and the one before falls through to it. -/
theorem enterBlock_enters (hs : e.Sound) (hl : Laid pos e) {b : BlockId} (hb : e.blocks.get? pos = some b)
    (h : Emit.enterBlock b e = .ok () e') :
    e'.Blank ∧ (e.Open → ∃ e₁, Emit.syncAll e = .ok () e₁ ∧ Extends pos (e₁.terminate (.br b)) e') := by
  obtain ⟨t, ht, hclosed⟩ := build_terminated hs
  unfold Emit.enterBlock at h
  rw [bind_of_ok ht] at h
  cases t with
  | true =>
    obtain ⟨-, name, hblock⟩ := hl.unused pos b (Int.le_refl _) hb
    exact ⟨(setPoint_blank (q := pos) hblock h).1, fun hopen => absurd hopen (hclosed.1 rfl)⟩
  | false =>
    have hr : e.Ready := ⟨hs, by simpa using hclosed⟩
    obtain ⟨_, e₁, hsyncAll, h⟩ := bind_eq_ok h
    obtain ⟨hcont, hsync⟩ := (syncAll_spec (E := fun _ _ => True) hr).ok hsyncAll
    have h₁ : Proceeds pos e e₁ := hcont.proceeds hr hl
    have hterm : Term.Sound e₁.types e₁.function.blocks.size (.br b) :=
      h₁.ready.targets pos b (h₁.extended.map _ _ hb)
    have hstops : Stops pos e₁ (e₁.terminate (.br b)) :=
      (terminate_spec (E := fun _ _ => True) h₁.ready h₁.laid hsync hterm).ok (build_terminate h₁.ready.isOpen _)
    rw [bind_of_ok (build_terminate h₁.ready.isOpen _), get_bind] at h
    obtain ⟨_, e₂, hlog, h⟩ := bind_eq_ok h
    obtain ⟨log, rfl⟩ : ∃ log, e₂ = (e₁.terminate (.br b)).noting e₁.offset log := by
      cases hlog
      exact ⟨_, rfl⟩
    obtain ⟨-, name, hblock⟩ := hstops.laid.unused pos b (Int.le_refl _) (h₁.extended.map _ _ hb)
    have hblock : ((e₁.terminate (.br b)).noting e₁.offset log).function.block? b = some { name } := hblock
    obtain ⟨hblank, hext⟩ := setPoint_blank (q := pos) hblock h
    refine ⟨hblank, fun _ => ⟨e₁, hsyncAll, ?_⟩⟩
    exact (extends_noting _ _ _).trans hext

/-- Arriving at a position either changes nothing or enters a block. -/
theorem arrive_enters (h : Scanning pos e) (harrive : Emit.arrive pos e = .ok () e') :
    e'.blocks.get? pos = none ∧ Unmoved e e' ∨ ∃ b, e'.blocks.get? pos = some b ∧ e'.Blank ∧
      (e.Open → ∃ e₁ e₂, Unmoved e e₁ ∧ e₁.Ready ∧ Emit.syncAll e₁ = .ok () e₂ ∧
        Extends pos (e₂.terminate (.br b)) e') := by
  have henter {e₁ : Emitter} (hreg : Registers pos (e.noting pos e.log) e₁) (hu : Unmoved e e₁)
      (hat : Emit.enterAt pos e₁ = .ok () e') :
      e'.blocks.get? pos = none ∧ Unmoved e e' ∨ ∃ b, e'.blocks.get? pos = some b ∧ e'.Blank ∧
        (e.Open → ∃ e₁ e₂, Unmoved e e₁ ∧ e₁.Ready ∧ Emit.syncAll e₁ = .ok () e₂ ∧
          Extends pos (e₂.terminate (.br b)) e') := by
    unfold Emit.enterAt at hat
    rw [get_bind] at hat
    cases hget : e₁.blocks.get? pos with
    | none =>
      rw [hget] at hat
      cases hat
      exact .inl ⟨hget, hu⟩
    | some b =>
      rw [hget] at hat
      have hat : Emit.enterBlock b e₁ = .ok () e' := hat
      obtain ⟨hblank, hfalls⟩ := enterBlock_enters hreg.sound hreg.laid hget hat
      have hmap : e'.blocks.get? pos = some b := by
        have hsync (hc : ¬e₁.Open) : e₁.Synced := by
          have hsync := h.synced fun ho => hc (hreg.isOpen.2 ho)
          refine ⟨hu.idle.operands.trans hsync.operands, fun s hs => ?_⟩
          rw [hu.idle.locals] at hs
          exact hsync.clean s hs
        obtain ⟨hext, -⟩ :=
          (enterBlock_spec (E := fun _ _ => True) hreg.sound hreg.laid hreg.same.2.1 hsync hget).ok hat
        exact hext.map _ _ hget
      refine .inr ⟨b, hmap, hblank, fun ho => ?_⟩
      obtain ⟨e₂, hsyncAll, hext⟩ := hfalls (hreg.isOpen.2 ho)
      exact ⟨e₁, e₂, hu, ⟨hreg.sound, hreg.isOpen.2 ho⟩, hsyncAll, hext⟩
  have hu := unmoved_noting e pos e.log
  have hs := h.sound.noting pos e.log
  have hl := h.laid.noting pos e.log
  unfold Emit.arrive at harrive
  have hset : Emit.setOffset pos e = .ok () (e.noting pos e.log) := rfl
  rw [bind_of_ok hset] at harrive
  obtain ⟨t, _, hlabel, harrive⟩ := bind_eq_ok harrive
  cases hlabel
  split at harrive
  · obtain ⟨b, e₁, hblock, hat⟩ := bind_eq_ok harrive
    obtain ⟨hreg, -⟩ :=
      (blockAt_registers (E := fun _ _ => True) hs hl (Int.le_refl _) (Int.ofNat_le.2 h.pos_le)).ok hblock
    exact henter hreg (hu.trans (unmoved_blockAt hs hblock)) hat
  · exact henter ⟨.refl _, hs, hl, Iff.rfl, rfl, rfl, rfl, rfl⟩ hu harrive

/-! ## Stations -/

/-- The instruction at a position is translated by an emitter whose block has not ended. -/
structure Station (m : Method) (ef : Emitter) (pos : Nat) (e : Emitter) : Prop where
  ready : e.Ready
  laid : Laid (pos + 1) e
  method : e.method = m
  starts : StartsAt m.bytes pos
  extended : Extends (pos + 1) e ef
  blank : ∀ b, e.blocks.get? pos = some b → e.Blank ∧ e.Synced ∧ e.builder.point = b
  translated : ∃ byte next e', m.bytes[pos]? = some byte ∧ Emit.instruction byte (pos + 1) e = .ok next e' ∧
    Arrives m next e' ∧ pos < next

theorem Arrives.station (h : Arrives m pos e₁) (ha : Accepts m ef) (harrive : Emit.arrive pos e₁ = .ok () e)
    (hopen : e.Open) : Station m ef pos e := by
  obtain ⟨e', harrive', hm, hext, harrived, -⟩ := h.arrived ha
  rw [harrive] at harrive'
  cases harrive'
  obtain ⟨-, -, byte, -, -, -, -, hbyte, -⟩ := h.translated ha harrive hopen
  obtain ⟨next, e₂, hadvance⟩ := h.advances ha harrive hbyte
  have hnext := h.next harrive hbyte hadvance
  obtain ⟨⟨hext₂, -⟩, hlt, -⟩ := (advance_spec harrived (hm ▸ hbyte)).ok hadvance
  refine ⟨⟨harrived.sound, hopen⟩, harrived.laid, hm, h.startsAt, hext₂.trans ((hnext.extended ha).mono hlt), ?_, ?_⟩
  · intro b hb
    obtain ⟨-, hsync, hpoint⟩ := harrived.entered b hb
    rcases arrive_enters h.scanning.2 harrive with ⟨hnone, -⟩ | ⟨_, _, hblank, -⟩
    · rw [hnone] at hb
      cases hb
    · exact ⟨hblank, hsync, hpoint⟩
  · obtain ⟨t, ht, hclosed⟩ := build_terminated harrived.sound
    unfold Emit.advance at hadvance
    rw [bind_of_ok ht] at hadvance
    cases t with
    | true => exact absurd hopen (hclosed.1 rfl)
    | false =>
      obtain ⟨last, e₃, hinstr, hrest⟩ := bind_eq_ok hadvance
      obtain ⟨_, e₄, hcheck, hlast⟩ := bind_eq_ok hrest
      obtain rfl := (checkInterior_same _ _).ok hcheck
      cases hlast
      exact ⟨byte, next, e₂, hbyte, hinstr, hnext, hlt⟩

/-- The instruction at the start of a block has a station. -/
theorem Accepts.station_of_block (ha : Accepts m ef) {b : BlockId} (hb : ef.blocks.get? (pos : Int) = some b) :
    ∃ e, Station m ef pos e ∧ e.Blank ∧ e.Synced ∧ e.builder.point = b := by
  obtain ⟨e₁, e, byte, next, e₂, h, harrive, hbyte, ht, -⟩ := ha.translated_of_block hb
  obtain ⟨-, harrived, -⟩ := (arrive_spec (E := fun _ _ => True) h.scanning.2).ok harrive
  obtain ⟨t, ht', hclosed⟩ := build_terminated harrived.sound
  rw [ht] at ht'
  cases ht'
  have hst := h.station ha harrive (by simpa using hclosed)
  have hb' := hst.extended.old pos b (by omega) hb
  exact ⟨e, hst, hst.blank b hb'⟩

end Compiler

/-! ## Going on -/

variable {σ : Type} {host : Host σ} {c : Prop} {e e' e₁ ef : Emitter} {regs : IR.Registers} {p : Program}
  {f q pos : Nat} {m : Method} {T : Side σ}

/-- A run of the program from the start of a block on. -/
def Side.block (host : Host σ) (p : Program) (m : Method) (f i : Nat) (regs : IR.Registers) : Side σ :=
  Side.resting (fun fr => fr.localSlots.size = m.locals.toNatClampNeg) (p.run host f i regs)

/-- The registers are those of a function, with its parameters. -/
structure Compiler.Furnished (ef : Emitter) (regs : IR.Registers) : Prop where
  primed : Primed ef regs
  size : regs.size = ef.types.size

/-- The run goes on at a position: in the middle of a block, or at the start of one after everything has been
stored. -/
inductive Side.Resumes (host : Host σ) (p : Program) (m : Method) (ef : Emitter) (f q : Nat) : Nat → Side σ → Prop
  | inside {pos : Nat} {e : Emitter} (regs : IR.Registers) (hnone : ef.blocks.get? pos = none)
    (hst : Station m ef pos e) (hq : q ≤ pos) : Resumes host p m ef f q pos (Side.code host p ef f e regs)
  | entering {pos : Nat} {b : BlockId} {T : Side σ} (hb : ef.blocks.get? pos = some b)
    (h : T.Carries False Lane.syncAll fun _ T' => ∃ regs, Furnished ef regs ∧
      T' = Side.block host p m f b.toNat regs) : Resumes host p m ef f q pos T

/-- With everything stored, the run stands at the start of any block to which it goes. -/
theorem Side.block_of_code (hsync : e.Synced) (hs : e.Sound) (hm : e.method = m) (hext : Extends q e ef)
    {mc : Machine σ} {ℓ : Lane} (h : (Side.code host p ef f e regs).fits mc ℓ) (i : Nat) :
    Furnished ef regs ∧ (Side.block host p m f i regs).fits mc ℓ := by
  obtain ⟨hsize, V, hf⟩ := h
  refine ⟨⟨?_, hsize⟩, ?_, V, hf.frame, hf.lane_eq hsync⟩
  · obtain ⟨ts, hts⟩ := hext.grows
    refine { hf.primed with types := ?_ }
    rw [hts, Array.size_append]
    exact Nat.le_trans hf.primed.types (Nat.le_add_right _ _)
  · change mc.frame.localSlots.size = m.locals.toNatClampNeg
    rw [size_localSlots hf.frame, ← hf.size, hs.numLocals, hm]

/-- The rest of a block that is left for another one, with everything stored. -/
theorem Side.code_departs {i : Nat} (hsync : e.Synced) (hs : e.Sound) (hm : e.method = m) (hext : Extends q e ef)
    (hrun : (Side.code host p ef f e regs).run = p.run host f i regs) :
    (Side.code host p ef f e regs).Carries c Lane.syncAll fun _ T => ∃ regs, Furnished ef regs ∧
      T = Side.block host p m f i regs := by
  intro mc ℓ hfits
  obtain ⟨hfurnished, hblock⟩ := Side.block_of_code hsync hs hm hext hfits i
  have hcarries : (Side.block host p m f i regs).Carries c Lane.syncAll fun _ T =>
      T = Side.block host p m f i regs := Side.resting_syncAll _ _
  refine (hcarries mc ℓ hblock).mono ?_ ?_
  · rintro ε ℓ' ⟨mc', herror, hbroken⟩
    exact ⟨mc', (congrFun hrun mc).trans herror, hbroken⟩
  · rintro _ ℓ' ⟨T, mc', hstep, hfits, hhost, rfl⟩
    exact ⟨_, mc', (congrFun hrun mc).trans hstep, hfits, hhost, regs, hfurnished, rfl⟩

/-- The run goes on where the pass arrives. -/
theorem Side.code_arrives (ha : Accepts m ef) (h : Arrives m pos e) (hopen : e.Open) (hq : q ≤ pos)
    (regs : IR.Registers) : Side.Resumes host p m ef f q pos (Side.code host p ef f e regs) := by
  obtain ⟨e₁, harrive, hm, hext, harrived, hopen₁⟩ := h.arrived ha
  have hst := h.station ha harrive (hopen₁ hopen)
  rcases arrive_enters h.scanning.2 harrive with ⟨hnone, hu⟩ | ⟨b, hb, -, hfalls⟩
  · rw [Side.code_unmoved hu]
    refine .inside regs ?_ hst hq
    cases hb : ef.blocks.get? pos with
    | none => rfl
    | some b =>
      rw [hst.extended.old pos b (by omega) hb] at hnone
      cases hnone
  · obtain ⟨e₂, e₃, hu, hr, hsyncAll, hext'⟩ := hfalls hopen
    rw [Side.code_unmoved hu]
    refine .entering (hst.extended.map _ _ hb) ?_
    obtain ⟨hcont, hsync⟩ := (syncAll_spec (E := fun _ _ => True) hr).ok hsyncAll
    have hext₃ : Extends pos e₃ ef :=
      ((extends_terminate hcont.ready.isOpen _).trans hext').trans (hst.extended.mono (Nat.le_succ _))
    have hm₃ : e₃.method = m := hcont.emits.method.trans (hu.idle.method.trans h.scanning.1)
    refine (Side.code_carries (realizes_syncAll hr) hsyncAll hcont.emits.point hcont.ready.toSound hext₃).imp ?_
    rintro _ _ ⟨regs', rfl, -, hsync⟩ mc ℓ hfits
    obtain ⟨hfurnished, hblock⟩ := Side.block_of_code hsync hcont.ready.toSound hm₃ hext₃ hfits b.toNat
    refine ⟨Side.block host p m f b.toNat regs', ?_, hblock, regs', hfurnished, rfl⟩
    have hrun : (Side.code host p ef f e₃ regs').run = p.depart host f (lowerTerm (.br b)) regs' :=
      Side.code_run hcont.ready.isOpen (hext'.trans (hst.extended.mono (Nat.le_succ _)))
    exact congrFun hrun mc

/-- A block into which nothing has been emitted is all that is left of it. -/
theorem Side.run_block (hfn : ef.function.Sound) (hp : ef.function.lower = .ok p) (hs : e.Sound) (hext : Extends q e ef)
    (hcurrent : e.current = []) :
    p.run host (f + 1) e.builder.point.toNat regs = (Side.code host p ef f e regs).run := by
  obtain ⟨b, b', hb, hb', -⟩ := hext.block hs
  have hcode : remaining ef e = b'.instrs.toList := by
    unfold remaining
    rw [hb', Option.map_some, Option.getD_some, hcurrent, List.length_nil, List.drop_zero]
  have hending : ending ef e = lowerTerm b'.term := by
    unfold ending
    rw [hb', Option.map_some, Option.getD_some]
  unfold Side.code
  simp only
  rw [hcode, hending]
  exact run_lowered hfn hp (Function.block?_eq_some.1 hb').2 regs

/-- A run from the start of a block stands at the station there. -/
theorem Side.code_of_block (ha : Accepts m ef) (hfn : ef.function.Sound) (hp : ef.function.lower = .ok p) {b : BlockId}
    (hb : ef.blocks.get? (pos : Int) = some b) :
    ∃ e, Station m ef pos e ∧ ∀ regs, Furnished ef regs → ∀ mc ℓ, (Side.block host p m (f + 1) b.toNat regs).fits mc ℓ →
      (Side.code host p ef f e regs).fits mc ℓ ∧
        (Side.block host p m (f + 1) b.toNat regs).run mc = (Side.code host p ef f e regs).run mc := by
  obtain ⟨e, hst, hblank, hsync, rfl⟩ := ha.station_of_block hb
  refine ⟨e, hst, fun regs hfurnished mc ℓ hfits => ⟨⟨hfurnished.size, ?_⟩, ?_⟩⟩
  · obtain ⟨hslots, V, hf, rfl⟩ := hfits
    have hnone {i : Nat} {s : Slot} (hs : e.locals[i]? = some s) : s = {} :=
      hblank.locals s (Array.mem_of_getElem? hs)
    have hprimed : Primed e regs := by
      exact { hfurnished.primed with types := (Array.getElem?_eq_some_iff.1 hst.ready.params.2.2).1 }
    refine ⟨V, .of_synced hprimed hf hsync ?_ ?_ ?_⟩
    · rw [hst.ready.numLocals, hst.method, ← size_localSlots hf]
      exact hslots.symm
    · intro i s v hs _ hn
      obtain rfl := hnone hs
      cases hn
    · exact fun i s hs hne => absurd (hnone hs) hne
  · exact congrFun (Side.run_block hfn hp hst.ready.toSound hst.extended hblank.current) mc

end MethodJit
