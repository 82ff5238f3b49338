import MethodJit.Proofs.Totality

/-!
# The blocks of a method

While the code of a method is generated, a block is made when one is first asked for at an offset, and the
map has it from then on. Only the entry block is made without an offset. So the map numbers the other
blocks: each of them is at exactly one offset.
-/

namespace MethodJit.Compiler

open IR BlockMap

variable {e e' : Emitter} {m : Method}

/-- The blocks of the function are the entry block, which is the first, and one block at each offset of
the map. -/
structure Emitter.Numbered (e : Emitter) : Prop where
  entry : ∃ b, e.function.block? 0 = some b ∧ b.name = "entry"
  apart : ∀ offset, e.blocks.get? offset ≠ some 0
  injective : ∀ offset offset' id, e.blocks.get? offset = some id → e.blocks.get? offset' = some id →
    offset = offset'
  onto : ∀ id, (∃ b, e.function.block? id = some b) ↔ id = 0 ∨ ∃ offset, e.blocks.get? offset = some id

theorem entered_blocks (h : Emitter.make? m = some e) :
    e.entered.function.blocks = #[{ name := "entry" }] ∧ ∀ offset, e.entered.blocks.get? offset = none := by
  rw [make?_eq_some h]
  exact ⟨rfl, fun _ => rfl⟩

/-- Whatever was added to the entry block is at an offset. -/
theorem Finished.numbered (hf : Finished e') (hmake : Emitter.make? m = some e)
    (hadds : Adds e.entered e') : e'.Numbered := by
  obtain ⟨hblocks, hnone⟩ := entered_blocks hmake
  have hsize : e.entered.function.blocks.size = 1 := by rw [hblocks]; rfl
  have hentry : ∃ b, e'.function.block? 0 = some b ∧ b.name = "entry" := by
    have hname := hadds.names 0 (by omega)
    rw [hblocks] at hname
    exact Option.map_eq_some_iff.1 hname
  refine ⟨hentry, fun offset hid => ?_, hf.arrived.laid.injective, fun id => ⟨?_, ?_⟩⟩
  · rcases hadds.fresh offset 0 hid with hold | hle
    · rw [hnone] at hold
      cases hold
    · rw [hsize] at hle
      exact absurd hle (by decide)
  · rintro ⟨b, hb⟩
    obtain ⟨h0, hlt⟩ := Function.target_of_block? hb
    by_cases hzero : id = 0
    · exact .inl hzero
    · have hne : id.toNat ≠ 0 := fun h => hzero (by rw [← Int.toNat_of_nonneg h0, h]; rfl)
      obtain ⟨offset, hid⟩ := hadds.made id.toNat (by omega) hlt
      exact .inr ⟨offset, by rw [hid, Int.toNat_of_nonneg h0]⟩
  · rintro (rfl | ⟨offset, hid⟩)
    · obtain ⟨b, hb, -⟩ := hentry
      exact ⟨b, hb⟩
    · obtain ⟨h0, hlt⟩ := hf.arrived.sound.targets offset id hid
      exact ⟨_, Function.block?_eq_some.2 ⟨h0, Array.getElem?_eq_getElem hlt⟩⟩

/-- Of the requests for blocks exactly those create a block that are the first at their offsets, each
once. At first and after every request the map holds what was made so far: it finds each block at its
offset, and of a range the least offset with a block. In a method that was translated every block but the
entry block is at one offset. -/
theorem blocks_created_once {M : Type → Type} [Monad M] [LawfulMonad M] (blocks : BlockMap)
    (calls : List (Int × M BlockId)) :
    let seen := blocks.items.map Prod.fst
    (((firsts seen calls).map Prod.fst).Nodup ∧
      ∀ offset, offset ∈ (firsts seen calls).map Prod.fst ↔ offset ∈ calls.map Prod.fst ∧ offset ∉ seen) ∧
    blocks.Holds blocks.items ∧
    (∃ replies : List (Int × BlockId) → List Reply,
      blocks.requests calls = replies <$> creations (firsts seen calls) ∧
      ∀ made : List (Int × BlockId), made.map Prod.fst = (firsts seen calls).map Prod.fst →
        Answered blocks.items (calls.map Prod.fst) made (replies made)) ∧
    ∀ m : Method, (generate m).fault = none → ∃ e e', Emitter.make? m = some e ∧
      Emit.method e = .ok () e' ∧ (generate m).function = e'.function ∧ e'.Numbered := by
  have hblocks : blocks.Holds blocks.items := holds_of_mem_iff fun _ => Iff.rfl
  refine ⟨⟨nodup_firsts _ calls, fun offset => mem_firsts_iff⟩, hblocks, requests_answered hblocks calls,
    fun m h => ?_⟩
  obtain ⟨e, e', hmake, hrun, hfun⟩ := exists_of_generate h
  obtain ⟨⟨-, hext⟩, hf⟩ := (method_spec hmake).ok hrun
  exact ⟨e, e', hmake, hrun, hfun, hf.numbered hmake hext.adds⟩

/-- An offset that is asked for again after another one, and the blocks of a loop. -/
theorem blocks_created_once_repeated :
    let create : StateM Nat BlockId := fun n => (n + 1, n + 1)
    let calls := [((4 : Int), create), (20, create), (4, create), (3, create)]
    let m : Method := { locals := 1, code := some #[0x09, 0x26, 0x12, 0xfa, 0xff, 0xff, 0x47] }
    ((firsts [] calls).map Prod.fst = [4, 20, 3] ∧ ((BlockMap.requests {} calls).run 0).2 = 3 ∧
      (generate m).fault = none) ∧
      (∃ replies : List (Int × BlockId) → List Reply,
        BlockMap.requests {} calls = replies <$> creations (firsts [] calls) ∧
        Answered [] [4, 20, 4, 3] [(4, 1), (20, 2), (3, 3)] (replies [(4, 1), (20, 2), (3, 3)])) ∧
      ∃ e e', Emitter.make? m = some e ∧ Emit.method e = .ok () e' ∧
        (generate m).function = e'.function ∧ e'.Numbered := by
  intro create calls m
  have haccepted : (generate m).fault = none := by decide +kernel
  obtain ⟨-, -, ⟨replies, heq, hall⟩, hmethod⟩ := blocks_created_once {} calls
  exact ⟨⟨rfl, rfl, haccepted⟩, ⟨replies, heq, hall _ rfl⟩, hmethod m haccepted⟩

end MethodJit.Compiler
