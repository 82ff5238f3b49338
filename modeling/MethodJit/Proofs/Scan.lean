import MethodJit.Proofs.Translation

/-!
# The pass over the code

The pass arrives at positions one after another. `Scanning pos e` is what holds when it arrives at `pos`:
the emitter is sound, nothing is pending if the current block has ended, and every block that is still
without code starts at `pos` or later. At the end of the code all blocks but the current one have their
terminator, so that generating code for a method succeeds with a function without problems or reports a
defect of the method.
-/

namespace MethodJit.Compiler

open IR

variable {e e' e'' : Emitter} {E : Fault → Emitter → Prop} {p pos : Nat}

structure Scanning (pos : Nat) (e : Emitter) : Prop where
  sound : e.Sound
  laid : Laid pos e
  pos_le : pos ≤ e.method.bytes.size
  synced : ¬ e.Open → e.Synced

/-- No block starts between two positions. -/
theorem Laid.advance {q : Nat} (h : Laid p e) (hpq : p ≤ q)
    (hnone : ∀ (offset : Int) id, e.blocks.get? offset = some id → ¬ (p ≤ offset ∧ offset < q)) :
    Laid q e := by
  refine ⟨fun i b hb hi h0 => ?_, fun offset id hq hid => ?_, h.injective, h.range⟩
  · obtain ⟨offset, hp, hid⟩ := h.waiting i b hb hi h0
    have := hnone offset _ hid
    exact ⟨offset, by omega, hid⟩
  · exact h.unused offset id (by omega) hid

theorem build_terminated (hs : e.Sound) :
    ∃ t, Emit.build .terminated e = .ok t e ∧ (t = true ↔ ¬ e.Open) := by
  obtain ⟨b, hb⟩ := hs.point
  refine ⟨decide (0 < b.terms), ?_, ?_⟩
  · obtain ⟨⟨f, point⟩, method, blocks, offset, operands, locals, log⟩ := e
    change f.block? point = some b at hb
    simp only [Emit.build, Build.terminated, hb]
  · rw [decide_eq_true_iff]
    constructor
    · rintro ht ⟨b', hb', h0⟩
      rw [hb] at hb'
      cases hb'
      omega
    · intro h
      refine Nat.pos_of_ne_zero fun h0 => h ⟨b, hb, h0⟩

/-- The emitter at another instruction and with another log. -/
def Emitter.noting (e : Emitter) (offset : Int) (log : Array LogLine) : Emitter :=
  { e with offset, log }

theorem Emitter.Sound.noting (h : e.Sound) (offset : Int) (log : Array LogLine) :
    (e.noting offset log).Sound :=
  ⟨h.function, h.point, h.operands, h.slots, h.numLocals, h.targets⟩

theorem Laid.noting (h : Laid p e) (offset : Int) (log : Array LogLine) :
    Laid p (e.noting offset log) :=
  ⟨h.waiting, h.unused, h.injective, h.range⟩

theorem Emitter.Synced.noting (h : e.Synced) (offset : Int) (log : Array LogLine) :
    (e.noting offset log).Synced :=
  ⟨h.operands, h.clean⟩

theorem extends_noting (e : Emitter) (offset : Int) (log : Array LogLine) :
    Extends p e (e.noting offset log) :=
  ⟨rfl, .refl _, (Extends.refl (p := p) e).blocks, fun _ _ h => h, fun _ _ _ h => h, .of_names rfl fun _ => rfl⟩

/-! ## Entering blocks -/

/-- The emitter at another insertion point. -/
def Emitter.at (e : Emitter) (id : BlockId) : Emitter :=
  { e with builder := { e.builder with point := id } }

/-- A block that waits at a position can be entered when the one before has ended. -/
theorem Laid.enter (hl : Laid pos e) (hs : e.Sound) (hclosed : ¬ e.Open) {id : BlockId}
    (hid : e.blocks.get? pos = some id) :
    (e.at id).Ready ∧ Laid (pos + 1) (e.at id) := by
  obtain ⟨hne, name, hb⟩ := hl.unused pos id (Int.le_refl _) hid
  refine ⟨⟨⟨hs.function, ⟨_, hb⟩, hs.operands, hs.slots, hs.numLocals, hs.targets⟩, ⟨_, hb, rfl⟩⟩,
    fun i b hb' hi h0 => ?_, fun offset id' hp hid' => ?_, hl.injective, hl.range⟩
  · have hi' : i ≠ e.builder.point.toNat := by
      rintro rfl
      obtain ⟨b', hb''⟩ := hs.point
      obtain ⟨hp, -⟩ := Function.block?_eq_some.1 hb''
      exact hclosed ⟨b, Function.block?_eq_some.2 ⟨hp, hb'⟩, h0⟩
    obtain ⟨offset, hp, hid'⟩ := hl.waiting i b hb' hi' h0
    refine ⟨offset, ?_, hid'⟩
    have hoffset : offset ≠ pos := by
      rintro rfl
      rw [hid] at hid'
      cases hid'
      exact hi rfl
    omega
  · obtain ⟨-, name', hb'⟩ := hl.unused offset id' (by omega) hid'
    refine ⟨fun heq => ?_, name', hb'⟩
    have hsame : id' = id := by
      obtain ⟨h0, -⟩ := Function.block?_eq_some.1 hb
      obtain ⟨h0', -⟩ := Function.block?_eq_some.1 hb'
      change id'.toNat = id.toNat at heq
      rw [← Int.toNat_of_nonneg h0', heq, Int.toNat_of_nonneg h0]
    subst hsame
    have := hl.injective _ _ _ hid hid'
    omega

/-- What holds when a block at a position has been entered, if there is one. -/
structure Arrived (pos : Nat) (e : Emitter) : Prop where
  sound : e.Sound
  laid : Laid (pos + 1) e
  offset : e.offset = pos
  synced : ¬ e.Open → e.Synced
  entered : ∀ id, e.blocks.get? pos = some id → e.Open ∧ e.Synced ∧ e.builder.point = id
  labelled : e.method.bytes[pos]? = some Opcode.label.byte → ∃ id, e.blocks.get? pos = some id

/-- Going on in a block after the one before it has ended. -/
theorem setPoint_spec (hs : e.Sound) (hl : Laid pos e) (hoffset : e.offset = pos)
    (hclosed : ¬ e.Open) (hsync : e.Synced) {id : BlockId} (hid : e.blocks.get? pos = some id) :
    Ends (do
      Emit.build (.setPoint id)
      Emit.resetLocals) e E fun _ e' => Extends pos e e' ∧ Arrived pos e' := by
  obtain ⟨hr, hl'⟩ := hl.enter hs hclosed hid
  refine Ends.bind (Q := fun _ e' => e' = e.at id) (ends_of_ok rfl rfl) fun _ e₁ he => ?_
  subst he
  refine (resetLocals_spec hr ⟨hsync.operands, hsync.clean⟩).imp fun _ e₂ ⟨h₂, hsync₂⟩ => ?_
  have hext : Extends pos e (e.at id) :=
    ⟨rfl, .refl _, (Extends.refl (p := pos) e).blocks, fun _ _ h => h, fun _ _ _ h => h, .of_names rfl fun _ => rfl⟩
  refine ⟨hext.trans (h₂.emits.extends hr.isOpen), h₂.ready.toSound, h₂.emits.laid hl',
    h₂.emits.offset.trans hoffset, fun h => absurd h₂.ready.isOpen h, fun id' hid' => ?_,
    fun _ => ⟨id, by rw [h₂.emits.map]; exact hid⟩⟩
  rw [h₂.emits.map] at hid'
  change e.blocks.get? pos = some id' at hid'
  rw [hid] at hid'
  cases hid'
  exact ⟨h₂.ready.isOpen, hsync₂, h₂.emits.point⟩

theorem enterBlock_spec (hs : e.Sound) (hl : Laid pos e) (hoffset : e.offset = pos)
    (hsync : ¬ e.Open → e.Synced) {id : BlockId} (hid : e.blocks.get? pos = some id) :
    Ends (Emit.enterBlock id) e E fun _ e' => Extends pos e e' ∧ Arrived pos e' := by
  obtain ⟨t, ht, hopen⟩ := build_terminated hs
  unfold Emit.enterBlock
  rw [Ends, bind_of_ok ht]
  cases t with
  | true => exact setPoint_spec hs hl hoffset (hopen.1 rfl) (hsync (hopen.1 rfl)) hid
  | false =>
    have hr : e.Ready := ⟨hs, by simpa using hopen⟩
    refine (syncAll_spec hr).bind fun _ e₁ h => ?_
    obtain ⟨h₁, hsync₁⟩ := h
    have h₁ := h₁.proceeds hr hl
    have hterm : Term.Sound e₁.types e₁.function.blocks.size (.br id) :=
      h₁.ready.targets pos id (h₁.extended.map _ _ hid)
    refine (terminate_spec h₁.ready h₁.laid hsync₁ hterm).bind fun _ e₂ h₂ => ?_
    have h₂ := h₁.stops h₂
    rw [ends_bind, ends_get]
    refine Ends.bind (Q := fun _ e' => ∃ log, e' = e₂.noting e₂.offset log)
      (ends_modify.2 ⟨_, rfl⟩) ?_
    rintro _ _ ⟨log, rfl⟩
    exact (setPoint_spec (h₂.sound.noting _ log) (h₂.laid.noting _ log) (h₂.offset.trans hoffset)
      h₂.closed (h₂.synced.noting _ log) (h₂.extended.map _ _ hid)).imp fun _ e' h =>
        ⟨h₂.extended.trans ((extends_noting _ _ log).trans h.1), h.2⟩

/-- Entering the block at a position after at most one block was made. -/
theorem enterAt_spec (h : Scanning pos e) (hr : Registers pos (e.noting pos e.log) e')
    (hlabel : e.method.bytes[pos]? = some Opcode.label.byte → ∃ id, e'.blocks.get? pos = some id) :
    Ends (Emit.enterAt pos) e' E fun _ e'' =>
      Extends pos e e'' ∧ Arrived pos e'' ∧ (e.Open → e''.Open) := by
  have hext : Extends pos e e' := (extends_noting e pos e.log).trans hr.extended
  have hsync (hclosed : ¬ e'.Open) : e'.Synced := by
    have hsync := h.synced fun hopen => hclosed (hr.isOpen.2 hopen)
    refine ⟨hr.same.2.2.1.trans hsync.operands, fun s hs => hsync.clean s ?_⟩
    rw [hr.same.2.2.2] at hs
    exact hs
  unfold Emit.enterAt
  rw [ends_bind, ends_get]
  cases hid : e'.blocks.get? pos with
  | some id =>
    exact (enterBlock_spec hr.sound hr.laid hr.same.2.1 hsync hid).imp fun _ _ h₂ =>
      ⟨hext.trans h₂.1, h₂.2, fun _ => (h₂.2.entered id (h₂.1.map _ _ hid)).1⟩
  | none =>
    refine ⟨hext, ⟨hr.sound, hr.laid.advance (Nat.le_succ _) fun offset id hid' => ?_,
      hr.same.2.1, hsync, fun id hid' => ?_, by rw [hext.method]; exact hlabel⟩, hr.isOpen.2⟩
    · rintro ⟨hle, hlt⟩
      have : offset = pos := by omega
      rw [this, hid] at hid'
      cases hid'
    · rw [hid] at hid'
      cases hid'

theorem arrive_spec (h : Scanning pos e) :
    Ends (Emit.arrive pos) e E fun _ e' =>
      Extends pos e e' ∧ Arrived pos e' ∧ (e.Open → e'.Open) := by
  unfold Emit.arrive
  refine Ends.bind (Q := fun _ e' => e' = e.noting pos e.log) (ends_of_ok rfl rfl) ?_
  rintro _ _ rfl
  have hs := h.sound.noting pos e.log
  have hl := h.laid.noting pos e.log
  rw [ends_bind]
  unfold Emit.isLabelAt
  rw [ends_bind, ends_get, ends_pure]
  split
  case isTrue =>
    exact (blockAt_registers hs hl (Int.le_refl _) (Int.ofNat_le.2 h.pos_le)).bind
      fun id e₁ h₁ => enterAt_spec h h₁.1 fun _ => ⟨id, h₁.2⟩
  case isFalse hlabel =>
    exact enterAt_spec h ⟨.refl _, hs, hl, Iff.rfl, rfl, rfl, rfl, rfl⟩ fun h =>
      absurd (decide_eq_true h) hlabel

/-! ## Advancing -/

/-- No block starts strictly between two positions. -/
def Vacant (e : Emitter) (pos next : Nat) : Prop :=
  ∀ (offset : Int) id, e.blocks.get? offset = some id → ¬ (pos < offset ∧ offset < next)

theorem checkInterior_spec (hl : Laid (pos + 1) e) {next : Nat} (hnext : pos + 1 ≤ next) :
    Ends (Emit.checkInterior pos next) e Refuses fun _ e' =>
      e' = e ∧ Laid next e ∧ Vacant e pos next := by
  unfold Emit.checkInterior
  rw [ends_bind, ends_get]
  cases hwithin : e.blocks.within? (pos + 1) next with
  | some offset => exact ⟨_, rfl⟩
  | none =>
    have hvacant : Vacant e pos next := fun offset id hid =>
      BlockMap.not_mem_of_within?_eq_none hwithin hid
    exact ⟨rfl, hl.advance hnext hvacant, hvacant⟩

/-- Skipping one instruction. -/
theorem skip_bind {α : Type} {Q : α → Emitter → Prop} (hl : Laid (pos + 1) e)
    (hpos : pos < e.method.bytes.size) (byte : UInt8) {k : Nat → Emit α}
    (hk : ∀ next, pos < next → next ≤ e.method.bytes.size → Laid next e → Vacant e pos next →
      Ends (k next) e Refuses Q) :
    Ends (do
      let r ← Emit.fetch (pos + 1) (skipInstruction byte)
      Emit.checkInterior pos r.2
      k r.2) e Refuses Q := by
  refine (fetch_spec (Cursor.advances_skipInstruction byte)).bind fun ⟨_, next⟩ e₁ ⟨he, hread⟩ => ?_
  subst he
  obtain ⟨-, hle, hlast⟩ := Cursor.advances_skipInstruction byte _ _ _ hread
  refine (checkInterior_spec hl hle).bind fun _ e₁ ⟨he, hl', hvacant⟩ => ?_
  subst he
  exact hk next hle (hlast hpos) hl' hvacant

/-- Skipping code goes forward up to a position that no waiting block is before. -/
theorem skipFrom_spec (hl : Laid pos e) (hpos : pos ≤ e.method.bytes.size) {fuel : Nat}
    (hfuel : e.method.bytes.size < pos + fuel) :
    Ends (Emit.skipFrom fuel pos) e Refuses fun next e' =>
      (∃ offset, e' = e.noting offset e.log) ∧ Laid next e ∧ next ≤ e.method.bytes.size ∧
      (∀ (offset : Int) id, e.blocks.get? offset = some id → ¬ (pos ≤ offset ∧ offset < next)) ∧
      pos ≤ next ∧ (e.blocks.get? pos = none →
        ∀ byte, e.method.bytes[pos]? = some byte → byte ≠ Opcode.label.byte → pos < next) := by
  induction fuel generalizing pos e with
  | zero => omega
  | succ fuel ih =>
    unfold Emit.skipFrom
    rw [ends_bind, ends_get]
    cases hbyte : e.method.bytes[pos]? with
    | none =>
      exact ⟨⟨e.offset, rfl⟩, hl, hpos, fun _ _ _ => by omega, Nat.le_refl _, fun _ _ h => by cases h⟩
    | some byte =>
      simp only
      split
      case isTrue hstop =>
        refine ⟨⟨e.offset, rfl⟩, hl, hpos, fun _ _ _ => by omega, Nat.le_refl _,
          fun hnone b hb hne => ?_⟩
        cases hb
        simp [hnone, hne] at hstop
      case isFalse hstop =>
        have hnone : e.blocks.get? pos = none := by
          cases hget : e.blocks.get? pos with
          | none => rfl
          | some id => simp [hget] at hstop
        have hne {offset : Int} {id : BlockId} (hid : e.blocks.get? offset = some id) :
            offset ≠ pos := by
          rintro rfl
          rw [hnone] at hid
          cases hid
        have hl₁ : Laid (pos + 1) (e.noting pos e.log) :=
          (hl.noting pos e.log).advance (Nat.le_succ _) fun offset id hid => by
            have := hne hid
            omega
        refine Ends.bind (Q := fun _ e' => e' = e.noting pos e.log) (ends_of_ok rfl rfl) ?_
        rintro _ _ rfl
        refine skip_bind hl₁ (Array.getElem?_eq_some_iff.1 hbyte).1 byte
          fun next hlt hlast hl₂ hvacant => ?_
        change next ≤ e.method.bytes.size at hlast
        refine (ih hl₂ hlast (by change e.method.bytes.size < _; omega)).imp fun last e' => ?_
        rintro ⟨⟨offset, rfl⟩, hl₃, hlast', hnone', hle', -⟩
        refine ⟨⟨offset, rfl⟩, ⟨hl₃.waiting, hl₃.unused, hl₃.injective, hl₃.range⟩, hlast',
          fun offset id hid => ?_, Nat.le_trans (Nat.le_of_lt hlt) hle',
          fun _ _ _ _ => Nat.lt_of_lt_of_le hlt hle'⟩
        have h₁ := hne hid
        have h₂ := hvacant offset id hid
        have h₃ := hnone' offset id hid
        omega

theorem skipUnreachable_spec (h : Arrived pos e) (hclosed : ¬ e.Open) {byte : UInt8}
    (hbyte : e.method.bytes[pos]? = some byte) :
    Ends (Emit.skipUnreachable pos) e Refuses fun next e' =>
      (Extends (pos + 1) e e' ∧ Scanning next e') ∧ pos < next ∧ Vacant e' pos next := by
  have hnone : e.blocks.get? pos = none := by
    cases hget : e.blocks.get? pos with
    | none => rfl
    | some id => exact absurd (h.entered id hget).1 hclosed
  have hlabel : byte ≠ Opcode.label.byte := by
    rintro rfl
    obtain ⟨id, hid⟩ := h.labelled hbyte
    rw [hnone] at hid
    cases hid
  have hlt := (Array.getElem?_eq_some_iff.1 hbyte).1
  have hl : Laid pos e := by
    refine ⟨fun i b hb hi h0 => ?_, fun offset id hp hid => ?_, h.laid.injective, h.laid.range⟩
    · obtain ⟨offset, hp, hid⟩ := h.laid.waiting i b hb hi h0
      exact ⟨offset, by omega, hid⟩
    · have hne : offset ≠ pos := by
        rintro rfl
        rw [hnone] at hid
        cases hid
      exact h.laid.unused offset id (by omega) hid
  unfold Emit.skipUnreachable
  rw [ends_bind, ends_get]
  refine (skipFrom_spec hl (Nat.le_of_lt hlt) (by omega)).bind fun next e₁ => ?_
  rintro ⟨⟨offset, rfl⟩, hl₁, hlast, hvacant, -, hprogress⟩
  refine ⟨⟨extends_noting e offset _, h.sound.noting .., hl₁.noting .., hlast, fun _ => ?_⟩,
    hprogress hnone byte hbyte hlabel, fun offset id hid => ?_⟩
  · exact (h.synced hclosed).noting ..
  · have := hvacant offset id hid
    omega

/-- Translating the instruction at a position. -/
theorem translate_spec (h : Arrived pos e) (hopen : e.Open) {byte : UInt8}
    (hbyte : e.method.bytes[pos]? = some byte) :
    Ends (do
      let next ← Emit.instruction byte (pos + 1)
      Emit.checkInterior pos next
      pure next) e Refuses fun next e' =>
        Translates (pos + 1) (pos + 1) (actionOfByte byte) e next e' ∧ Scanning next e' ∧ pos < next ∧
          Vacant e' pos next := by
  have hlt := (Array.getElem?_eq_some_iff.1 hbyte).1
  refine (instruction_spec ⟨h.sound, hopen⟩ h.laid (Nat.le_refl _) hlt byte).bind fun next e₁ h₁ => ?_
  obtain ⟨-, hle, hlast⟩ := Cursor.advances_reader _ _ _ _ _ h₁.reads
  have hlast := hlast hlt
  cases hends : (actionOfByte byte).ends with
  | false =>
    have hp := h₁.proceeds hends
    refine (checkInterior_spec hp.laid hle).bind fun _ e₂ ⟨he, hl, hvacant⟩ => ?_
    subst he
    rw [← hp.extended.method] at hlast
    exact ⟨h₁, ⟨hp.ready.toSound, hl, hlast, fun hclosed => absurd hp.ready.isOpen hclosed⟩, hle,
      hvacant⟩
  | true =>
    have hp := h₁.stops hends
    refine (checkInterior_spec hp.laid hle).bind fun _ e₂ ⟨he, hl, hvacant⟩ => ?_
    subst he
    rw [← hp.extended.method] at hlast
    exact ⟨h₁, ⟨hp.sound, hl, hlast, fun _ => hp.synced⟩, hle, hvacant⟩

theorem Translates.extended {a : Action} {next : Nat} (h : Translates p pos a e next e') :
    Extends p e e' := by
  cases hends : a.ends with
  | false => exact (h.proceeds hends).extended
  | true => exact (h.stops hends).extended

/-- One round of the pass. -/
theorem advance_spec (h : Arrived pos e) {byte : UInt8} (hbyte : e.method.bytes[pos]? = some byte) :
    Ends (Emit.advance byte pos) e Refuses fun next e' =>
      (Extends (pos + 1) e e' ∧ Scanning next e') ∧ pos < next ∧ Vacant e' pos next := by
  obtain ⟨t, ht, hopen⟩ := build_terminated h.sound
  unfold Emit.advance
  rw [Ends, bind_of_ok ht]
  cases t with
  | true => exact skipUnreachable_spec h (hopen.1 rfl) hbyte
  | false =>
    have hopen : e.Open := by simpa using hopen
    exact (translate_spec h hopen hbyte).imp fun _ _ h₁ => ⟨⟨h₁.1.extended, h₁.2.1⟩, h₁.2.2⟩

/-- The pass ends at the end of the code, and it ends because every round goes forward. -/
theorem codeFrom_spec (h : Scanning pos e) {fuel : Nat} (hfuel : e.method.bytes.size < pos + fuel) :
    Ends (Emit.codeFrom fuel pos) e Refuses fun _ e' =>
      Extends pos e e' ∧ Arrived e.method.bytes.size e' := by
  induction fuel generalizing pos e with
  | zero => exact absurd h.pos_le (by omega)
  | succ fuel ih =>
    unfold Emit.codeFrom
    refine (arrive_spec h).bind fun _ e₁ ⟨hext₁, h₁, _⟩ => ?_
    rw [ends_bind, ends_get]
    cases hbyte : e₁.method.bytes[pos]? with
    | none =>
      have hpos : pos = e.method.bytes.size := by
        rw [hext₁.method, Array.getElem?_eq_none_iff] at hbyte
        exact Nat.le_antisymm h.pos_le hbyte
      exact ⟨hext₁, hpos ▸ h₁⟩
    | some byte =>
      refine (advance_spec h₁ hbyte).bind fun next e₂ ⟨⟨hext₂, h₂⟩, hlt, _⟩ => ?_
      have hext := hext₁.trans (hext₂.mono (Nat.le_succ _))
      have hsize : e₂.method.bytes.size = e.method.bytes.size := by rw [hext.method]
      refine (ih h₂ (by omega)).imp fun _ e₃ ⟨hext₃, h₃⟩ => ⟨hext.trans (hext₃.mono (Nat.le_of_lt hlt)), ?_⟩
      rwa [hsize] at h₃

end MethodJit.Compiler
