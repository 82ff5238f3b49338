import Mathlib.Data.List.Forall2
import MethodJit.IR.Lower

/-!
# Sound functions

A function is sound if its instructions have operands of the types they ask for and can be lowered, and
if its blocks have at most one terminator, with nothing after it and with targets that exist. Soundness
is kept while a function grows. Once all blocks have their terminator, a sound function has no problems.
-/

namespace MethodJit.IR

variable {types types' : Array Ty} {f : Function}

/-- The values have the types, one by one. -/
def Operands (types : Array Ty) (vs : List ValueId) (ts : List Ty) : Prop :=
  List.Forall₂ (fun v t => types[v]? = some t) vs ts

/-- The types that an instruction asks for, if it is a known one. -/
def Instr.operandTypes (i : Instr) : Option (List Ty) :=
  match i.op with
  | .constInt => some []
  | .loadField => some [.context]
  | .storeField => some [.context, i.field.type]
  | .loadElem => some [.slice, .int]
  | .storeElem => some [.slice, .int, .object]
  | .addInt => some [.int, .int]
  | .call => i.helper.map fun h => h.signature.params
  | .other _ => none

structure Instr.Sound (types : Array Ty) (i : Instr) : Prop where
  operands : ∃ ts, i.operandTypes = some ts ∧ Operands types i.args ts
  lowers : ∃ s, ∀ block, lowerInstr block i = .ok s

/-- The target is one of `n` blocks. -/
def Target (n : Nat) (id : BlockId) : Prop := 0 ≤ id ∧ id.toNat < n

/-- The terminator leaves one of `n` blocks of a function for another one, or leaves the function. -/
def Term.Sound (types : Array Ty) (n : Nat) : Term → Prop
  | .br target => Target n target
  | .condBr condition taken notTaken =>
    types[condition]? = some .bool ∧ Target n taken ∧ Target n notTaken
  | .ret v => types[v]? = some .object
  | .retVoid | .unreachable => True
  | .none | .trap _ => False

structure Block.Sound (types : Array Ty) (n : Nat) (b : Block) : Prop where
  instrs : ∀ i ∈ b.instrs, i.Sound types
  afterTerms : b.afterTerms = 0
  term : b.terms = 0 ∧ b.term = .none ∨ b.terms = 1 ∧ b.term.Sound types n

structure Function.Sound (f : Function) : Prop where
  params : ∃ ts, f.types = #[.void, .slice, .slice, .context] ++ ts
  blocks : ∀ b ∈ f.blocks, b.Sound f.types f.blocks.size

/-! ## Growth -/

/-- The types of further values were added. -/
def Grows (types types' : Array Ty) : Prop := ∃ ts, types' = types ++ ts

theorem Grows.refl (types : Array Ty) : Grows types types := ⟨#[], by simp⟩

theorem Grows.trans {types'' : Array Ty} (h : Grows types types') (h' : Grows types' types'') :
    Grows types types'' := by
  obtain ⟨ts, rfl⟩ := h
  obtain ⟨ts', rfl⟩ := h'
  exact ⟨ts ++ ts', by simp⟩

theorem Grows.getElem? (h : Grows types types') {v : ValueId} {t : Ty} (hv : types[v]? = some t) :
    types'[v]? = some t := by
  obtain ⟨ts, rfl⟩ := h
  rwa [Array.getElem?_append_left (Array.getElem?_eq_some_iff.1 hv).1]

theorem Operands.grow (h : Grows types types') {vs : List ValueId} {ts : List Ty}
    (hv : Operands types vs ts) : Operands types' vs ts :=
  hv.imp fun _ _ => h.getElem?

theorem Instr.Sound.grow (h : Grows types types') {i : Instr} (hi : i.Sound types) :
    i.Sound types' := by
  obtain ⟨⟨ts, hts, hargs⟩, hlow⟩ := hi
  exact ⟨⟨ts, hts, hargs.grow h⟩, hlow⟩

theorem Target.mono {n m : Nat} (h : n ≤ m) {id : BlockId} (ht : Target n id) : Target m id :=
  ⟨ht.1, Nat.lt_of_lt_of_le ht.2 h⟩

theorem Term.Sound.grow (h : Grows types types') {n m : Nat} (hn : n ≤ m) {t : Term}
    (ht : t.Sound types n) : t.Sound types' m := by
  cases t with
  | br target => exact ht.mono hn
  | condBr condition taken notTaken => exact ⟨h.getElem? ht.1, ht.2.1.mono hn, ht.2.2.mono hn⟩
  | ret v => exact h.getElem? ht
  | retVoid | unreachable => trivial
  | none | trap _ => exact ht

theorem Block.Sound.grow (h : Grows types types') {n m : Nat} (hn : n ≤ m) {b : Block}
    (hb : b.Sound types n) : b.Sound types' m where
  instrs i hi := (hb.instrs i hi).grow h
  afterTerms := hb.afterTerms
  term := hb.term.imp_right fun ht => ⟨ht.1, ht.2.grow h hn⟩

theorem Block.sound_empty (types : Array Ty) (n : Nat) (name : String) :
    Block.Sound types n { name } where
  instrs i hi := by cases hi.1
  afterTerms := rfl
  term := .inl ⟨rfl, rfl⟩

theorem Function.block?_eq_some {id : BlockId} {b : Block} :
    f.block? id = some b ↔ 0 ≤ id ∧ f.blocks[id.toNat]? = some b := by
  unfold Function.block?
  by_cases h : id < 0
  · simp [h, Int.not_le.2 h]
  · simp [h, Int.not_lt.1 h]

theorem Function.target_of_block? {id : BlockId} {b : Block} (h : f.block? id = some b) :
    Target f.blocks.size id := by
  obtain ⟨h0, hb⟩ := Function.block?_eq_some.1 h
  exact ⟨h0, (Array.getElem?_eq_some_iff.1 hb).1⟩

/-! ## Problems -/

theorem Function.typeOf_eq {v : ValueId} {t : Ty} (h : f.types[v]? = some t) : f.typeOf v = t := by
  simp only [Function.typeOf, h, Option.getD_some]

theorem Function.checkTypes_of_operands {vs : List ValueId} {ts : List Ty}
    (h : Operands f.types vs ts) (n : Nat) : f.checkTypes n vs ts = [] := by
  induction h generalizing n with
  | nil => rfl
  | cons hv _ ih => simp only [Function.checkTypes, Function.typeOf_eq hv, if_true, ih]

theorem Function.checkOperands_of_operands {vs : List ValueId} {ts : List Ty}
    (h : Operands f.types vs ts) : f.checkOperands vs ts = [] := by
  simp only [Function.checkOperands, h.length_eq, if_true, Function.checkTypes_of_operands h]

theorem Function.checkInstr_of_sound {i : Instr} (h : i.Sound f.types) : f.checkInstr i = [] := by
  obtain ⟨ts, hts, hargs⟩ := h.operands
  unfold Instr.operandTypes at hts
  unfold Function.checkInstr
  cases hop : i.op <;> simp only [hop] at hts ⊢ <;>
    first
    | cases hts; exact Function.checkOperands_of_operands hargs
    | (obtain ⟨h, hh, rfl⟩ := Option.map_eq_some_iff.1 hts
       simp only [hh, Function.checkOperands_of_operands hargs])
    | cases hts

theorem Function.checkInstrs_of_sound {is : List Instr} (h : ∀ i ∈ is, i.Sound f.types) (n : Nat) :
    f.checkInstrs n is = [] := by
  induction is generalizing n with
  | nil => rfl
  | cons i is ih =>
    have hi := Function.checkInstr_of_sound (h i List.mem_cons_self)
    simp only [Function.checkInstrs, hi, List.map_nil, List.nil_append]
    exact ih (fun j hj => h j (List.mem_cons_of_mem _ hj)) _

theorem Function.checkTargets_of_targets {ids : List BlockId}
    (h : ∀ id ∈ ids, Target f.blocks.size id) : f.checkTargets ids = [] := by
  simp only [Function.checkTargets, List.map_eq_nil_iff, List.filter_eq_nil_iff]
  intro id hid
  obtain ⟨h0, hlt⟩ := h id hid
  have hb : f.block? id = some f.blocks[id.toNat] :=
    Function.block?_eq_some.2 ⟨h0, Array.getElem?_eq_getElem hlt⟩
  simp [hb]

theorem Function.checkTerm_of_sound {t : Term} (h : t.Sound f.types f.blocks.size) :
    f.checkTerm t = [] := by
  cases t with
  | br target => exact Function.checkTargets_of_targets (List.forall_mem_singleton.2 h)
  | condBr condition taken notTaken =>
    have hc : Operands f.types [condition] [.bool] := .cons h.1 .nil
    rw [Function.checkTerm, Function.checkOperands_of_operands hc, List.nil_append]
    exact Function.checkTargets_of_targets (by simpa using h.2)
  | ret v => exact Function.checkOperands_of_operands (.cons h .nil)
  | none | retVoid | unreachable | trap _ => rfl

/-- A sound function whose blocks all have a terminator passes verification. -/
theorem Function.problems_eq_nil (h : f.Sound) (hne : f.blocks.isEmpty = false)
    (hterm : ∀ b ∈ f.blocks, b.terms ≠ 0) : f.problems = [] := by
  unfold Function.problems
  rw [hne, if_neg Bool.false_ne_true, List.flatMap_eq_nil_iff]
  intro b hb
  have hb := Array.mem_toList_iff.1 hb
  have hs := h.blocks b hb
  have hinstrs : f.checkInstrs 0 b.instrs.toList = [] :=
    Function.checkInstrs_of_sound (fun i hi => hs.instrs i (Array.mem_toList_iff.1 hi)) 0
  rcases hs.term with ⟨h0, -⟩ | ⟨h1, hterms⟩
  · exact absurd h0 (hterm b hb)
  · simp [Function.checkBlock, h1, hs.afterTerms, hinstrs, Function.checkTerm_of_sound hterms]

end MethodJit.IR
