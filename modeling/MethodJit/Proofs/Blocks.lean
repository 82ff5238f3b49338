import MethodJit.Compiler.Generate
import MethodJit.Proofs.BlockMaps
import MethodJit.Proofs.Emission
import MethodJit.Proofs.Reading

/-!
# Layouts of blocks

While code is generated, every block that has no terminator yet either is the current one or waits, empty,
at an offset that lies ahead. `Laid p e` says so of the offsets from `p` on. Blocks are made only at such
offsets, and what a block holds is never changed once it has its terminator.
-/

namespace MethodJit.Compiler

open IR

variable {e e' e'' : Emitter} {E : Fault → Emitter → Prop} {p : Nat}

/-! ## Waiting blocks -/

structure Laid (p : Nat) (e : Emitter) : Prop where
  /-- A block without a terminator is the current one or waits ahead. -/
  waiting : ∀ (i : Nat) b, e.function.blocks[i]? = some b → i ≠ e.builder.point.toNat → b.terms = 0 →
    ∃ offset : Int, p ≤ offset ∧ e.blocks.get? offset = some (i : Int)
  /-- A block that waits ahead is empty and is not the current one. -/
  unused : ∀ (offset : Int) id, p ≤ offset → e.blocks.get? offset = some id →
    id.toNat ≠ e.builder.point.toNat ∧ ∃ name, e.function.block? id = some { name }
  injective : ∀ (offset offset' : Int) id, e.blocks.get? offset = some id →
    e.blocks.get? offset' = some id → offset = offset'
  range : ∀ (offset : Int) id, e.blocks.get? offset = some id →
    0 ≤ offset ∧ offset ≤ e.method.bytes.size

/-- What a block holds stays, and all of it once the block has a terminator. -/
def BlockExtends (b b' : Block) : Prop :=
  (b.terms ≠ 0 → b' = b) ∧ ∃ is, b'.instrs = b.instrs ++ is

/-- Blocks keep their names, and those that were made since are at offsets that had none. -/
structure Adds (e e' : Emitter) : Prop where
  names : ∀ i < e.function.blocks.size,
    (e'.function.blocks[i]?).map Block.name = (e.function.blocks[i]?).map Block.name
  made : ∀ i : Nat, e.function.blocks.size ≤ i → i < e'.function.blocks.size →
    ∃ offset : Int, e'.blocks.get? offset = some (i : Int)
  fresh : ∀ (offset : Int) id, e'.blocks.get? offset = some id →
    e.blocks.get? offset = some id ∨ e.function.blocks.size ≤ id.toNat

/-- More code was generated, and blocks were made from the offset `p` on. -/
structure Extends (p : Nat) (e e' : Emitter) : Prop where
  method : e'.method = e.method
  grows : Grows e.types e'.types
  blocks : ∀ (i : Nat) b, e.function.blocks[i]? = some b →
    ∃ b', e'.function.blocks[i]? = some b' ∧ BlockExtends b b'
  map : ∀ offset id, e.blocks.get? offset = some id → e'.blocks.get? offset = some id
  old : ∀ (offset : Int) id, offset < p → e'.blocks.get? offset = some id →
    e.blocks.get? offset = some id
  adds : Adds e e'

/-- No block was made. -/
theorem Adds.of_names (hmap : e'.blocks = e.blocks)
    (hnames : ∀ i : Nat, (e'.function.blocks[i]?).map Block.name = (e.function.blocks[i]?).map Block.name) :
    Adds e e' := by
  have hsize : e'.function.blocks.size = e.function.blocks.size := by
    have hle (i : Nat) : e'.function.blocks.size ≤ i ↔ e.function.blocks.size ≤ i := by
      rw [← Array.getElem?_eq_none_iff, ← Array.getElem?_eq_none_iff,
        ← Option.map_eq_none_iff (f := Block.name), hnames, Option.map_eq_none_iff]
    exact Nat.le_antisymm ((hle _).2 (Nat.le_refl _)) ((hle _).1 (Nat.le_refl _))
  exact ⟨fun i _ => hnames i, fun i hle hlt => by omega, fun offset id hid => .inl (hmap ▸ hid)⟩

/-- A block was changed in other things than its name. -/
theorem Adds.of_change {n : Nat} {g : Block → Block} (hmap : e'.blocks = e.blocks)
    (hblocks : ∀ i : Nat, e'.function.blocks[i]? =
      (e.function.blocks[i]?).map fun b => if n = i then g b else b)
    (hname : ∀ b, (g b).name = b.name) : Adds e e' := by
  refine .of_names hmap fun i => ?_
  rw [hblocks, Option.map_map]
  refine Option.map_congr fun b _ => ?_
  change Block.name (ite _ _ _) = _
  split
  · exact hname b
  · rfl

theorem Adds.size_le (h : Adds e e') : e.function.blocks.size ≤ e'.function.blocks.size := by
  refine Nat.le_of_not_lt fun hlt => ?_
  have hname := h.names _ hlt
  rw [Array.getElem?_eq_none (Nat.le_refl _), Array.getElem?_eq_getElem hlt] at hname
  cases hname

theorem Adds.trans (h : Adds e e') (h' : Adds e' e'')
    (hmap : ∀ offset id, e'.blocks.get? offset = some id → e''.blocks.get? offset = some id) :
    Adds e e'' := by
  have hle := h.size_le
  refine ⟨fun i hi => ?_, fun i hi hlt => ?_, fun offset id hid => ?_⟩
  · exact (h'.names i (by omega)).trans (h.names i hi)
  · by_cases hi' : i < e'.function.blocks.size
    · obtain ⟨offset, hid⟩ := h.made i hi hi'
      exact ⟨offset, hmap _ _ hid⟩
    · exact h'.made i (by omega) hlt
  · rcases h'.fresh offset id hid with hid | hnew
    · exact h.fresh offset id hid
    · exact .inr (by omega)

theorem Extends.refl (e : Emitter) : Extends p e e :=
  ⟨rfl, .refl _, fun _ b hb => ⟨b, hb, fun _ => rfl, #[], by simp⟩, fun _ _ h => h, fun _ _ _ h => h,
    .of_names rfl fun _ => rfl⟩

theorem BlockExtends.trans {b b' b'' : Block} (h : BlockExtends b b') (h' : BlockExtends b' b'') :
    BlockExtends b b'' := by
  obtain ⟨hsame, is, his⟩ := h
  obtain ⟨hsame', is', his'⟩ := h'
  refine ⟨fun ht => ?_, is ++ is', by rw [his', his, Array.append_assoc]⟩
  have := hsame ht
  subst this
  exact hsame' ht

theorem Extends.trans (h : Extends p e e') (h' : Extends p e' e'') : Extends p e e'' := by
  refine ⟨h'.method.trans h.method, h.grows.trans h'.grows, fun i b hb => ?_,
    fun offset id hid => h'.map _ _ (h.map _ _ hid),
    fun offset id hp hid => h.old _ _ hp (h'.old _ _ hp hid), h.adds.trans h'.adds h'.map⟩
  obtain ⟨b', hb', hext⟩ := h.blocks i b hb
  obtain ⟨b'', hb'', hext'⟩ := h'.blocks i b' hb'
  exact ⟨b'', hb'', hext.trans hext'⟩

theorem Extends.mono {q : Nat} (h : Extends p e e') (hq : q ≤ p) : Extends q e e' :=
  ⟨h.method, h.grows, h.blocks, h.map, fun offset id hlt hid => h.old offset id (by omega) hid, h.adds⟩

theorem Extends.size_le (h : Extends p e e') : e.function.blocks.size ≤ e'.function.blocks.size :=
  h.adds.size_le

theorem Emits.point (h : Emits e e') : e'.builder.point = e.builder.point := by
  obtain ⟨ts, is, heq, -⟩ := h
  rw [heq]
  rfl

theorem Emits.method (h : Emits e e') : e'.method = e.method := by
  obtain ⟨ts, is, heq, -⟩ := h
  rw [heq]
  rfl

theorem Emits.offset (h : Emits e e') : e'.offset = e.offset := by
  obtain ⟨ts, is, heq, -⟩ := h
  rw [heq]
  rfl

theorem Emits.map (h : Emits e e') : e'.blocks = e.blocks := by
  obtain ⟨ts, is, heq, -⟩ := h
  rw [heq]
  rfl

theorem Emits.blocks (h : Emits e e') : ∃ is : Array Instr, ∀ i : Nat,
    e'.function.blocks[i]? = (e.function.blocks[i]?).map fun b =>
      if e.builder.point.toNat = i then { b with instrs := b.instrs ++ is } else b := by
  obtain ⟨ts, is, heq, -⟩ := h
  refine ⟨is.toArray, fun i => ?_⟩
  rw [heq]
  exact extend_blocks ts is i

theorem Emits.extends (h : Emits e e') (hopen : e.Open) : Extends p e e' := by
  obtain ⟨is, hblocks⟩ := h.blocks
  refine ⟨h.method, h.grows, fun i b hb => ?_, fun offset id hid => by rw [h.map]; exact hid,
    fun offset id _ hid => by rw [h.map] at hid; exact hid, .of_change h.map hblocks fun _ => rfl⟩
  rw [hblocks, hb]
  refine ⟨_, rfl, fun ht => ?_, ?_⟩
  · obtain ⟨b₀, hb₀, h0⟩ := hopen
    obtain ⟨-, hb₀⟩ := Function.block?_eq_some.1 hb₀
    have hi : ¬ e.builder.point.toNat = i := by
      rintro rfl
      rw [hb₀] at hb
      cases hb
      exact ht h0
    simp only [hi, if_false]
  · split
    · exact ⟨is, rfl⟩
    · exact ⟨#[], by simp⟩

theorem Emits.laid (h : Emits e e') (hl : Laid p e) : Laid p e' := by
  obtain ⟨is, hblocks⟩ := h.blocks
  refine ⟨fun i b hb hi h0 => ?_, fun offset id hp hid => ?_, ?_, ?_⟩
  · rw [h.point] at hi
    rw [hblocks, Option.map_eq_some_iff] at hb
    obtain ⟨b₀, hb₀, rfl⟩ := hb
    rw [if_neg (Ne.symm hi)] at h0
    rw [h.map]
    exact hl.waiting i b₀ hb₀ hi h0
  · rw [h.map] at hid
    obtain ⟨hne, name, hb⟩ := hl.unused offset id hp hid
    obtain ⟨h0, hb⟩ := Function.block?_eq_some.1 hb
    rw [h.point]
    refine ⟨hne, name, Function.block?_eq_some.2 ⟨h0, ?_⟩⟩
    rw [hblocks, hb, Option.map_some, if_neg (Ne.symm hne)]
  · rw [h.map]
    exact hl.injective
  · rw [h.map, h.method]
    exact hl.range

/-! ## Registering blocks -/

/-- The emitter after an empty block was made at an offset. -/
def Emitter.register (e : Emitter) (offset : Int) (name : String) : Emitter :=
  { e with
    builder := { e.builder with
      function := { e.function with blocks := e.function.blocks.push { name } } }
    blocks := e.blocks.insert offset e.function.blocks.size }

theorem register_blocks (offset : Int) (name : String) (i : Nat) :
    (e.register offset name).function.blocks[i]? =
      if i = e.function.blocks.size then some { name } else e.function.blocks[i]? :=
  Array.getElem?_push

theorem register_map (offset offset' : Int) (name : String) :
    (e.register offset name).blocks.get? offset' =
      if offset' = offset then some (e.function.blocks.size : Int) else e.blocks.get? offset' :=
  BlockMap.get?_insert ..

theorem register_block?_of_some {id : BlockId} {b : Block} (offset : Int) (name : String)
    (h : e.function.block? id = some b) :
    (e.register offset name).function.block? id = some b := by
  obtain ⟨h0, hb⟩ := Function.block?_eq_some.1 h
  have hlt := (Array.getElem?_eq_some_iff.1 hb).1
  refine Function.block?_eq_some.2 ⟨h0, ?_⟩
  rw [register_blocks, if_neg (Nat.ne_of_lt hlt), hb]

theorem adds_register (e : Emitter) (offset : Int) (name : String) : Adds e (e.register offset name) := by
  have hsize : (e.register offset name).function.blocks.size = e.function.blocks.size + 1 :=
    Array.size_push _
  refine ⟨fun i hi => by rw [register_blocks, if_neg (Nat.ne_of_lt hi)], fun i hle hlt => ?_,
    fun offset' id hid => ?_⟩
  · have hi : i = e.function.blocks.size := by omega
    exact ⟨offset, by rw [register_map, if_pos rfl, hi]⟩
  · rw [register_map] at hid
    split at hid
    · rw [← Option.some.inj hid]
      exact .inr (Nat.le_refl _)
    · exact .inl hid

theorem extends_register {offset : Int} (hp : p ≤ offset) (hnew : e.blocks.get? offset = none)
    (name : String) : Extends p e (e.register offset name) := by
  refine ⟨rfl, .refl _, fun i b hb => ?_, fun offset' id hid => ?_, fun offset' id hlt hid => ?_,
    adds_register e offset name⟩
  · have hlt := (Array.getElem?_eq_some_iff.1 hb).1
    refine ⟨b, ?_, fun _ => rfl, #[], by simp⟩
    rw [register_blocks, if_neg (Nat.ne_of_lt hlt), hb]
  · rw [register_map, if_neg, hid]
    rintro rfl
    rw [hnew] at hid
    cases hid
  · rwa [register_map, if_neg (by omega)] at hid

theorem Emitter.Sound.register (h : e.Sound) (offset : Int) (name : String) :
    (e.register offset name).Sound := by
  have hsize : (e.register offset name).function.blocks.size = e.function.blocks.size + 1 :=
    Array.size_push _
  refine ⟨⟨h.function.params, fun b hb => ?_⟩, ?_, h.operands, h.slots, h.numLocals, ?_⟩
  · obtain ⟨i, hb⟩ := Array.mem_iff_getElem?.1 hb
    rw [register_blocks] at hb
    split at hb
    · rw [← Option.some.inj hb]
      exact Block.sound_empty _ _ name
    · exact (h.function.blocks b (Array.mem_of_getElem? hb)).grow (.refl _) (by omega)
  · obtain ⟨b, hb⟩ := h.point
    exact ⟨b, register_block?_of_some offset name hb⟩
  · intro offset' id hid
    rw [register_map] at hid
    rw [hsize]
    split at hid
    · rw [← Option.some.inj hid]
      exact ⟨Int.natCast_nonneg _, by omega⟩
    · exact (h.targets offset' id hid).mono (Nat.le_succ _)

theorem Emitter.Open.register (h : e.Open) (offset : Int) (name : String) :
    (e.register offset name).Open := by
  obtain ⟨b, hb, h0⟩ := h
  exact ⟨b, register_block?_of_some offset name hb, h0⟩

theorem Laid.register (hl : Laid p e) (hs : e.Sound) {offset : Int} (hp : p ≤ offset)
    (hlast : offset ≤ e.method.bytes.size) (hnew : e.blocks.get? offset = none) (name : String) :
    Laid p (e.register offset name) := by
  have hold {offset' : Int} {id : BlockId} (hid : e.blocks.get? offset' = some id) :
      id.toNat < e.function.blocks.size ∧ 0 ≤ id := (hs.targets offset' id hid).symm
  refine ⟨fun i b hb hi h0 => ?_, fun offset' id hp' hid => ?_, fun o o' id ho ho' => ?_,
    fun offset' id hid => ?_⟩
  · rw [register_blocks] at hb
    split at hb
    · subst i
      exact ⟨offset, hp, by rw [register_map, if_pos rfl]⟩
    · obtain ⟨offset', hp', hid⟩ := hl.waiting i b hb hi h0
      exact ⟨offset', hp', (extends_register hp hnew name).map _ _ hid⟩
  · rw [register_map] at hid
    split at hid
    · rw [← Option.some.inj hid]
      refine ⟨?_, name, Function.block?_eq_some.2 ⟨Int.natCast_nonneg _, ?_⟩⟩
      · obtain ⟨b, hb⟩ := hs.point
        have := (Function.target_of_block? hb).2
        change _ ≠ e.builder.point.toNat
        omega
      · rw [register_blocks, Int.toNat_natCast, if_pos rfl]
    · obtain ⟨hne, name', hb⟩ := hl.unused offset' id hp' hid
      exact ⟨hne, name', register_block?_of_some offset name hb⟩
  · rw [register_map] at ho ho'
    split at ho <;> split at ho'
    · omega
    · have := hold ho'
      rw [← Option.some.inj ho] at this
      omega
    · have := hold ho
      rw [← Option.some.inj ho'] at this
      omega
    · exact hl.injective o o' id ho ho'
  · rw [register_map] at hid
    split at hid
    · subst offset'
      exact ⟨by omega, hlast⟩
    · exact hl.range offset' id hid

/-! ## Going on and stopping -/

/-- Code was generated, and more can be added to the block. -/
structure Proceeds (p : Nat) (e e' : Emitter) : Prop where
  extended : Extends p e e'
  ready : e'.Ready
  laid : Laid p e'
  point : e'.builder.point = e.builder.point
  offset : e'.offset = e.offset

/-- Code was generated up to the terminator of the block. -/
structure Stops (p : Nat) (e e' : Emitter) : Prop where
  extended : Extends p e e'
  sound : e'.Sound
  laid : Laid p e'
  point : e'.builder.point = e.builder.point
  offset : e'.offset = e.offset
  closed : ¬ e'.Open
  synced : e'.Synced

theorem Continues.proceeds (h : Continues e e') (hr : e.Ready) (hl : Laid p e) : Proceeds p e e' :=
  ⟨h.emits.extends hr.isOpen, h.ready, h.emits.laid hl, h.emits.point, h.emits.offset⟩

theorem Proceeds.refl (hr : e.Ready) (hl : Laid p e) : Proceeds p e e := ⟨.refl e, hr, hl, rfl, rfl⟩

theorem Proceeds.trans (h : Proceeds p e e') (h' : Proceeds p e' e'') : Proceeds p e e'' :=
  ⟨h.extended.trans h'.extended, h'.ready, h'.laid, h'.point.trans h.point, h'.offset.trans h.offset⟩

theorem Proceeds.stops (h : Proceeds p e e') (h' : Stops p e' e'') : Stops p e e'' :=
  ⟨h.extended.trans h'.extended, h'.sound, h'.laid, h'.point.trans h.point,
    h'.offset.trans h.offset, h'.closed, h'.synced⟩

theorem Proceeds.continues (h : Proceeds p e e') (h' : Continues e' e'') : Proceeds p e e'' :=
  h.trans (h'.proceeds h.ready h.laid)

/-- The failures that report a defect of the method. -/
def Refuses (f : Fault) (_ : Emitter) : Prop := ∃ c, f = .code c

/-- At most an empty block was made ahead. -/
structure Registers (p : Nat) (e e' : Emitter) : Prop where
  extended : Extends p e e'
  sound : e'.Sound
  laid : Laid p e'
  isOpen : e'.Open ↔ e.Open
  same : e'.builder.point = e.builder.point ∧ e'.offset = e.offset ∧ e'.operands = e.operands ∧
    e'.locals = e.locals

theorem Emitter.open_register (hs : e.Sound) (offset : Int) (name : String) :
    (e.register offset name).Open ↔ e.Open := by
  refine ⟨?_, fun h => h.register offset name⟩
  obtain ⟨b, hb⟩ := hs.point
  rintro ⟨b', hb', h0⟩
  have := register_block?_of_some offset name hb
  change (e.register offset name).function.block? e.builder.point = some b' at hb'
  rw [this] at hb'
  cases hb'
  exact ⟨b, hb, h0⟩

theorem blockAt_of_some {offset : Int} {id : BlockId} (h : e.blocks.get? offset = some id) :
    Emit.blockAt offset e = .ok id e := by
  unfold Emit.blockAt
  rw [get_bind, BlockMap.getOrCreate_of_some h, pure_bind]
  rfl

theorem blockAt_of_none {offset : Int} (h : e.blocks.get? offset = none) :
    Emit.blockAt offset e = .ok e.function.blocks.size (e.register offset s!"L{offset}") := by
  unfold Emit.blockAt
  rw [get_bind, BlockMap.getOrCreate_of_none h]
  rfl

/-- The block at an offset ahead. -/
theorem blockAt_registers (hs : e.Sound) (hl : Laid p e) {offset : Int} (hp : p ≤ offset)
    (hlast : offset ≤ e.method.bytes.size) :
    Ends (Emit.blockAt offset) e E fun id e' =>
      Registers p e e' ∧ e'.blocks.get? offset = some id := by
  cases hget : e.blocks.get? offset with
  | some id =>
    exact ends_of_ok (blockAt_of_some hget) ⟨⟨.refl e, hs, hl, Iff.rfl, rfl, rfl, rfl, rfl⟩, hget⟩
  | none =>
    have hext := extends_register hp hget s!"L{offset}"
    refine ends_of_ok (blockAt_of_none hget) ⟨⟨hext, hs.register .., hl.register hs hp hlast hget _,
      e.open_register hs .., rfl, rfl, rfl, rfl⟩, ?_⟩
    exact (register_map ..).trans (if_pos rfl)

theorem blockAt_spec (hr : e.Ready) (hl : Laid p e) {offset : Int} (hp : p ≤ offset)
    (hlast : offset ≤ e.method.bytes.size) :
    Ends (Emit.blockAt offset) e E fun id e' =>
      Proceeds p e e' ∧ e'.blocks.get? offset = some id :=
  (blockAt_registers hr.toSound hl hp hlast).imp fun _ _ ⟨h, hid⟩ =>
    ⟨⟨h.extended, ⟨h.sound, h.isOpen.2 hr.isOpen⟩, h.laid, h.same.1, h.same.2.1⟩, hid⟩

/-- The target of a branch is ahead, or a block has started there. -/
theorem branchTarget_spec (hr : e.Ready) (hl : Laid p e) {next : Nat} (hp : p ≤ next) (d : Int) :
    Ends (Emit.branchTarget next d) e Refuses fun id e' =>
      Proceeds p e e' ∧ e'.blocks.get? (next + d) = some id ∧
        0 ≤ next + d ∧ next + d ≤ e.method.bytes.size := by
  unfold Emit.branchTarget
  rw [ends_bind, ends_get]
  by_cases hrange : next + d < 0 ∨ e.method.bytes.size < next + d
  · simp only [hrange, if_true]
    exact ⟨_, rfl⟩
  · have hle : 0 ≤ next + d ∧ next + d ≤ e.method.bytes.size := by omega
    simp only [hrange, if_false]
    by_cases hback : (next : Int) + d < next
    · simp only [hback, if_true]
      cases hget : e.blocks.get? (next + d) with
      | some id => exact ⟨.refl hr hl, hget, hle⟩
      | none => exact ⟨_, rfl⟩
    · simp only [hback, if_false]
      exact (blockAt_spec hr hl (by omega) hle.2).imp fun _ _ h => ⟨h.1, h.2, hle⟩

/-- The emitter after the current block was ended. -/
def Emitter.terminate (e : Emitter) (t : Term) : Emitter :=
  { e with builder := { e.builder with
      function := e.function.modifyBlock e.builder.point (Build.terminateWith t) } }

theorem build_terminate (h : e.Open) (t : Term) :
    Emit.build (.terminate t) e = .ok () (e.terminate t) := by
  obtain ⟨⟨f, point⟩, method, blocks, offset, operands, locals, log⟩ := e
  obtain ⟨b, hb, -⟩ := h
  change f.block? point = some b at hb
  simp only [Emit.build, Build.terminate, modifyPoint_eq hb]
  rfl

theorem terminate_blocks (t : Term) (i : Nat) :
    (e.terminate t).function.blocks[i]? = (e.function.blocks[i]?).map fun b =>
      if e.builder.point.toNat = i then Build.terminateWith t b else b := by
  simp only [Emitter.terminate, Emitter.function, Function.modifyBlock, Array.getElem?_modify]
  split <;> simp

theorem extends_terminate (h : e.Open) (t : Term) : Extends p e (e.terminate t) := by
  obtain ⟨b₀, hb₀, h0⟩ := h
  obtain ⟨-, hb₀⟩ := Function.block?_eq_some.1 hb₀
  refine ⟨rfl, .refl _, fun i b hb => ⟨_, by rw [terminate_blocks, hb]; rfl, ?_⟩, fun _ _ h => h,
    fun _ _ _ h => h, .of_change rfl (terminate_blocks t) fun _ => rfl⟩
  by_cases hi : e.builder.point.toNat = i
  · subst i
    rw [hb₀] at hb
    cases hb
    exact ⟨fun ht => absurd h0 ht, #[], by simp [Build.terminateWith]⟩
  · simp only [hi, if_false]
    exact ⟨fun _ => rfl, #[], by simp⟩

/-- Ending a block in which nothing is pending. -/
theorem terminate_spec (hr : e.Ready) (hl : Laid p e) (hsync : e.Synced) {t : Term}
    (ht : t.Sound e.types e.function.blocks.size) :
    Ends (Emit.build (.terminate t)) e E fun _ e' => Stops p e e' := by
  refine ends_of_ok (build_terminate hr.isOpen t) ?_
  obtain ⟨b₀, hb₀, h0⟩ := hr.isOpen
  obtain ⟨hp, hb₀⟩ := Function.block?_eq_some.1 hb₀
  have hsize : (e.terminate t).function.blocks.size = e.function.blocks.size := by
    simp [Emitter.terminate, Emitter.function, Function.modifyBlock]
  have hpoint : (e.terminate t).function.blocks[e.builder.point.toNat]? =
      some (Build.terminateWith t b₀) := by
    rw [terminate_blocks, hb₀, Option.map_some, if_pos rfl]
  refine ⟨extends_terminate hr.isOpen t, ⟨⟨hr.function.params, fun b hb => ?_⟩,
    ⟨_, Function.block?_eq_some.2 ⟨hp, hpoint⟩⟩, hr.operands, hr.slots, hr.numLocals,
    fun offset id hid => ?_⟩, ⟨fun i b hb hi hb0 => ?_, fun offset id hp' hid => ?_, hl.injective,
    hl.range⟩, rfl, rfl, ?_, ⟨hsync.operands, hsync.clean⟩⟩
  · rw [hsize]
    obtain ⟨i, hb⟩ := Array.mem_iff_getElem?.1 hb
    rw [terminate_blocks, Option.map_eq_some_iff] at hb
    obtain ⟨b₁, hb₁, rfl⟩ := hb
    have hs := hr.function.blocks b₁ (Array.mem_of_getElem? hb₁)
    split
    · subst i
      rw [hb₀] at hb₁
      cases hb₁
      refine ⟨hs.instrs, hs.afterTerms, .inr ⟨?_, ?_⟩⟩
      · simp [Build.terminateWith, h0]
      · simp only [Build.terminateWith, h0, if_true]
        exact ht
    · exact hs
  · rw [hsize]
    exact hr.targets offset id hid
  · change i ≠ e.builder.point.toNat at hi
    rw [terminate_blocks, Option.map_eq_some_iff] at hb
    obtain ⟨b₁, hb₁, rfl⟩ := hb
    rw [if_neg (Ne.symm hi)] at hb0
    exact hl.waiting i b₁ hb₁ hi hb0
  · obtain ⟨hne, name, hb⟩ := hl.unused offset id hp' hid
    obtain ⟨h0', hb⟩ := Function.block?_eq_some.1 hb
    refine ⟨hne, name, Function.block?_eq_some.2 ⟨h0', ?_⟩⟩
    rw [terminate_blocks, hb, Option.map_some, if_neg (Ne.symm hne)]
  · rintro ⟨b, hb, hb0⟩
    obtain ⟨-, hb⟩ := Function.block?_eq_some.1 hb
    change (e.terminate t).function.blocks[e.builder.point.toNat]? = some b at hb
    rw [hpoint] at hb
    cases hb
    simp [Build.terminateWith] at hb0

end MethodJit.Compiler
