import Mathlib.Data.List.Permutation
import MethodJit.IR.Run
import MethodJit.Proofs.Emission

/-!
# Type safety of programs

A workshop is a helper table together with a function that is being built. Whatever is done in it, every
instruction of the function assigns its result to a value of the type of that result, and a helper has a
routine of the signature with which it was declared. If the function can be lowered then, the registers of
every run hold words of the types of their values, or nothing yet. So a run stops only at the end, at a trap, at a
slot that does not exist, at a register to which nothing was assigned, or where a routine fails.
-/

namespace MethodJit

variable {t t' : HelperTable} {h : Helper} {name : String}

namespace HelperTable

/-- All routines have the signatures of their helpers. -/
def Sound (t : HelperTable) : Prop :=
  ∀ name h, t.find? name = some h → ∀ r, h.routine = some r → r.signature = h.signature

/-- All helpers are still there, with their signatures. -/
def Extends (t t' : HelperTable) : Prop :=
  ∀ name h, t.find? name = some h → ∃ h', t'.find? name = some h' ∧ h'.signature = h.signature

theorem Extends.refl (t : HelperTable) : t.Extends t := fun _ h hh => ⟨h, hh, rfl⟩

theorem find?_name (hh : t.find? name = some h) : h.name = name := by
  simpa using List.find?_some hh

theorem find?_append (t : HelperTable) (g : Helper) (name : String) :
    ({ t with helpers := t.helpers ++ [g] } : HelperTable).find? name =
      (t.find? name).or (if g.name = name then some g else none) := by
  simp only [find?, List.find?_append, List.find?_singleton, decide_eq_true_eq]

theorem find?_update (t : HelperTable) (g : Helper) (name : String) :
    (t.update g).find? name = (t.find? name).map fun k => if k.name = g.name then g else k := by
  have hname : ((fun k : Helper => decide (k.name = name)) ∘ fun k => if k.name = g.name then g else k) =
      fun k => decide (k.name = name) := by
    funext k
    by_cases hk : k.name = g.name <;> simp [hk]
  simp only [find?, update, List.find?_map, hname]

theorem declare_spec {s : Signature} (hok : t.declare name s = .ok (h, t')) (ht : t.Sound) :
    t'.Sound ∧ t.Extends t' := by
  unfold declare at hok
  split at hok
  · cases hok
  split at hok
  · split at hok
    · cases hok
      exact ⟨ht, .refl t⟩
    · cases hok
  · cases hok
    refine ⟨fun n g hg r hr => ?_, fun n g hg => ⟨g, ?_, rfl⟩⟩
    · rw [find?_append, Option.or_eq_some_iff] at hg
      rcases hg with hg | ⟨-, hg⟩
      · exact ht n g hg r hr
      · split at hg
        · cases hg
          cases hr
        · cases hg
    · rw [find?_append, hg]
      rfl

theorem bind_spec {i : Implementation} (hok : t.bind name i = .ok t') (ht : t.Sound) :
    t'.Sound ∧ t.Extends t' := by
  unfold bind at hok
  split at hok
  · cases hok
  split at hok
  · cases hok
  · cases hok
  · rename_i g r hg
    split at hok
    · rename_i hsig
      cases hok
      refine ⟨fun n k hk r' hr' => ?_, fun n k hk => ?_⟩
      · rw [find?_update] at hk
        obtain ⟨k₀, hk₀, rfl⟩ := Option.map_eq_some_iff.1 hk
        split at hr' <;> rename_i hname
        · rw [if_pos hname]
          cases hr'
          exact hsig
        · rw [if_neg hname]
          exact ht n k₀ hk₀ r' hr'
      · rw [find?_update, hk]
        refine ⟨_, rfl, ?_⟩
        simp only
        split
        · rename_i hname
          have hkg : t.find? k.name = some g := by
            rw [hname, find?_name hg]
            exact hg
          rw [find?_name hk, hk] at hkg
          cases hkg
          rfl
        · rfl
    · cases hok

theorem freeze_spec (hok : t.freeze = .ok t') (ht : t.Sound) : t'.Sound ∧ t.Extends t' := by
  unfold freeze at hok
  simp only at hok
  split at hok
  · cases hok
  · cases hok
    exact ⟨ht, .refl t⟩

end HelperTable

theorem Routine.ne_void (r : Routine) : ∀ t ∈ r.signature.params, t ≠ .void := by
  cases r <;> simp [Routine.signature]

/-- The word has the form that the type asks for, or nothing has been assigned yet. -/
def Word.Fits (w : Word) (t : Ty) : Prop := w = .blank ∨ w.hasType t = true

/-- A routine gives a word of its result type. -/
theorem Routine.hasType_of_call {σ : Type} {host : Host σ} {mc mc' : Machine σ} {r : Routine} {args : List Word} {w : Word}
    (hok : r.call host args mc = .ok w mc') (hvoid : r.signature.result ≠ .void) :
    w.hasType r.signature.result = true := by
  cases r with
  | bitAndInts =>
    cases hok
    rfl
  | effect _ | frame _ | indexed _ | pair _ => exact absurd rfl hvoid
  | _ =>
    obtain ⟨x, mc₁, -, hw⟩ := bind_eq_ok hok
    cases hw
    rfl

namespace IR

/-! ## Workshops -/

/-- A helper table and a function that is being built. -/
structure Workshop where
  table : HelperTable := {}
  builder : Builder

/-- What can be done in a workshop. -/
inductive Order
  | declare (name : String) (s : Signature)
  | bind (name : String) (i : Implementation)
  | freeze
  | newBlock (name : String)
  | setPoint (id : BlockId)
  | constInt (n : Int64)
  | loadField (frame : ValueId) (field : Field)
  | storeField (frame : ValueId) (field : Field) (x : ValueId)
  | loadElem (slice index : ValueId)
  | storeElem (slice index x : ValueId)
  | addInt (x y : ValueId)
  | call (helper : String) (args : List ValueId)
  | terminate (t : Term)

namespace Workshop

/-- The workshop with another table, unless there is none. -/
def withTable (w : Workshop) : Except HelperFault HelperTable → Workshop
  | .ok t => { w with table := t }
  | .error _ => w

/-- The workshop after building, which keeps its effect if it fails. -/
def build {α : Type} (w : Workshop) (x : Build α) : Workshop :=
  match x w.builder with
  | .ok _ b => { w with builder := b }
  | .error _ b => { w with builder := b }

/-- Carries out an order. What is refused has no effect on the table, and an unknown helper cannot be
called. -/
def perform (w : Workshop) : Order → Workshop
  | .declare name s => w.withTable ((w.table.declare name s).map Prod.snd)
  | .bind name i => w.withTable (w.table.bind name i)
  | .freeze => w.withTable w.table.freeze
  | .newBlock name => w.build (Build.newBlock name)
  | .setPoint id => w.build (Build.setPoint id)
  | .constInt n => w.build (Build.constInt n)
  | .loadField frame field => w.build (Build.loadField frame field)
  | .storeField frame field x => w.build (Build.storeField frame field x)
  | .loadElem slice index => w.build (Build.loadElem slice index)
  | .storeElem slice index x => w.build (Build.storeElem slice index x)
  | .addInt x y => w.build (Build.addInt x y)
  | .call helper args =>
    match w.table.find? helper with
    | some h => w.build (Build.call h args)
    | none => w
  | .terminate t => w.build (Build.terminate t)

/-- A new workshop for a function. -/
def start (name : String) : Workshop := { builder := { function := { name } } }

/-- The workshop after orders for a new function. -/
def after (name : String) (orders : List Order) : Workshop := orders.foldl perform (start name)

end Workshop

/-- An instruction with its helper as the table has it by now. -/
def Instr.updated (t : HelperTable) (i : Instr) : Instr :=
  { i with helper := i.helper.map fun h => (t.find? h.name).getD h }

def Block.updated (t : HelperTable) (b : Block) : Block := { b with instrs := b.instrs.map (Instr.updated t) }

/-- The function that was built. Its calls refer to the helpers of the table, also if these were bound later. -/
def Workshop.function (w : Workshop) : Function :=
  { w.builder.function with blocks := w.builder.function.blocks.map (Block.updated w.table) }

/-! ## What is built -/

/-- The type of the result of an instruction. -/
def Instr.resultType (i : Instr) : Ty :=
  match i.op with
  | .constInt | .addInt => .int
  | .loadField => i.field.type
  | .loadElem => .object
  | .call => (i.helper.map fun h => h.signature.result).getD .void
  | .storeField | .storeElem | .other _ => .void

/-- A result of a type goes to a value of that type, and no result goes nowhere. -/
def TypedResult (types : Array Ty) (result : ValueId) (t : Ty) : Prop :=
  if t = .void then result = 0 else types[result]? = some t

theorem TypedResult.grow {types types' : Array Ty} {v : ValueId} {t : Ty} (hg : Grows types types')
    (h : TypedResult types v t) : TypedResult types' v t := by
  unfold TypedResult at h ⊢
  split <;> rename_i hvoid
  · rwa [if_pos hvoid] at h
  · rw [if_neg hvoid] at h
    exact hg.getElem? h

structure Workshop.Sound (w : Workshop) : Prop where
  table : w.table.Sound
  params : Grows #[.void, .slice, .slice, .context] w.builder.function.types
  results : ∀ b ∈ w.builder.function.blocks, ∀ i ∈ b.instrs, TypedResult w.builder.function.types i.result i.resultType
  helpers : ∀ b ∈ w.builder.function.blocks, ∀ i ∈ b.instrs, ∀ h, i.helper = some h →
    ∃ h', w.table.find? h.name = some h' ∧ h'.signature = h.signature

namespace Workshop

variable {w : Workshop}

theorem sound_start (name : String) : (start name).Sound where
  table _ _ hh := by cases hh
  params := .refl _
  results _ hb := by simp [start] at hb
  helpers _ hb := by simp [start] at hb

theorem Sound.withTable (hw : w.Sound) {t : HelperTable} (ht : t.Sound) (hext : w.table.Extends t) :
    ({ w with table := t } : Workshop).Sound where
  table := ht
  params := hw.params
  results := hw.results
  helpers b hb i hi h hh := by
    obtain ⟨h₁, hfind, hsig⟩ := hw.helpers b hb i hi h hh
    obtain ⟨h₂, hfind', hsig'⟩ := hext _ _ hfind
    exact ⟨h₂, hfind', hsig'.trans hsig⟩

/-- Nothing is appended to the blocks. -/
theorem Sound.of_instrs (hw : w.Sound) {b : Builder} (htypes : Grows w.builder.function.types b.function.types)
    (hblocks : ∀ blk ∈ b.function.blocks, blk.instrs = #[] ∨
      ∃ blk' ∈ w.builder.function.blocks, blk.instrs = blk'.instrs) :
    ({ w with builder := b } : Workshop).Sound where
  table := hw.table
  params := hw.params.trans htypes
  results blk hb i hi := by
    rcases hblocks blk hb with hnil | ⟨blk', hb', heq⟩
    · simp [hnil] at hi
    · exact (hw.results blk' hb' i (heq ▸ hi)).grow htypes
  helpers blk hb i hi h hh := by
    rcases hblocks blk hb with hnil | ⟨blk', hb', heq⟩
    · simp [hnil] at hi
    · exact hw.helpers blk' hb' i (heq ▸ hi) h hh

theorem mem_modifyBlock {f : Function} {id : BlockId} {g : Block → Block} {blk : Block}
    (hb : blk ∈ (f.modifyBlock id g).blocks) : blk ∈ f.blocks ∨ ∃ blk' ∈ f.blocks, blk = g blk' := by
  obtain ⟨j, hj, rfl⟩ := Array.getElem_of_mem hb
  simp only [Function.modifyBlock, Array.getElem_modify]
  split
  · exact .inr ⟨_, Array.getElem_mem _, rfl⟩
  · exact .inl (Array.getElem_mem _)

theorem Sound.modifyPoint (hw : w.Sound) {g : Block → Block} (hg : ∀ b, (g b).instrs = b.instrs) :
    (w.build (Build.modifyPoint g)).Sound := by
  obtain ⟨table, f, point⟩ := w
  simp only [build, Build.modifyPoint]
  cases f.block? point with
  | none => exact hw
  | some b =>
    refine hw.of_instrs (.refl _) fun blk hb => .inr ?_
    rcases mem_modifyBlock hb with hb | ⟨blk', hb', rfl⟩
    · exact ⟨blk, hb, rfl⟩
    · exact ⟨blk', hb', hg blk'⟩

/-- An instruction is appended whose result has the type it was given. -/
theorem Sound.append (hw : w.Sound) {t : Ty} {i : Instr} (ht : i.resultType = t)
    (hhelper : ∀ h, i.helper = some h → w.table.find? h.name = some h) :
    (w.build (Build.append t i)).Sound := by
  obtain ⟨table, f, point⟩ := w
  have htypes : Grows f.types (f.types ++ (Compiler.resultTypes t).toArray) := ⟨_, rfl⟩
  have hassigned : TypedResult (f.types ++ (Compiler.resultTypes t).toArray) (if t = .void then 0 else f.types.size) t := by
    by_cases hvoid : t = .void <;> simp [TypedResult, Compiler.resultTypes, hvoid]
  simp only [build, Build.append, Bind.bind, EStateM.bind, Compiler.newValue_eq, Build.modifyPoint]
  cases hblock : Function.block? { f with types := f.types ++ (Compiler.resultTypes t).toArray } point with
  | none => exact hw.of_instrs htypes fun blk hb => .inr ⟨blk, hb, rfl⟩
  | some b =>
    refine ⟨hw.table, hw.params.trans htypes, fun blk hb k hk => ?_, fun blk hb k hk h hh => ?_⟩
    · rcases mem_modifyBlock hb with hb | ⟨blk', hb', rfl⟩
      · exact (hw.results blk hb k hk).grow htypes
      · rcases Array.mem_push.1 hk with hk | rfl
        · exact (hw.results blk' hb' k hk).grow htypes
        · subst ht
          exact hassigned
    · rcases mem_modifyBlock hb with hb | ⟨blk', hb', rfl⟩
      · exact hw.helpers blk hb k hk h hh
      · rcases Array.mem_push.1 hk with hk | rfl
        · exact hw.helpers blk' hb' k hk h hh
        · exact ⟨h, hhelper h hh, rfl⟩

/-- The result of building does not matter. -/
theorem build_discard {α : Type} (w : Workshop) (x : Build α) :
    w.build (do let _ ← x) = w.build x := by
  simp only [build, Bind.bind, EStateM.bind]
  cases x w.builder <;> rfl

theorem Sound.perform (hw : w.Sound) (o : Order) : (w.perform o).Sound := by
  have htable {r : Except HelperFault HelperTable}
      (hr : ∀ t, r = .ok t → t.Sound ∧ w.table.Extends t) : (w.withTable r).Sound := by
    cases r with
    | error e => exact hw
    | ok t => exact hw.withTable (hr t rfl).1 (hr t rfl).2
  cases o with
  | declare name s =>
    refine htable fun t ht => ?_
    cases hd : w.table.declare name s with
    | error e =>
      rw [hd] at ht
      cases ht
    | ok p =>
      rw [hd] at ht
      cases ht
      exact HelperTable.declare_spec hd hw.table
  | bind name i => exact htable fun t ht => HelperTable.bind_spec ht hw.table
  | freeze => exact htable fun t ht => HelperTable.freeze_spec ht hw.table
  | newBlock name =>
    refine hw.of_instrs (.refl _) fun blk hb => ?_
    rcases Array.mem_push.1 hb with hb | rfl
    · exact .inr ⟨blk, hb, rfl⟩
    · exact .inl rfl
  | setPoint id => exact hw.of_instrs (.refl _) fun blk hb => .inr ⟨blk, hb, rfl⟩
  | constInt n => exact hw.append rfl nofun
  | loadField frame field => exact hw.append rfl nofun
  | storeField frame field x =>
    rw [Workshop.perform, Build.storeField, build_discard]
    exact hw.append rfl nofun
  | loadElem slice index => exact hw.append rfl nofun
  | storeElem slice index x =>
    rw [Workshop.perform, Build.storeElem, build_discard]
    exact hw.append rfl nofun
  | addInt x y => exact hw.append rfl nofun
  | call helper args =>
    rw [Workshop.perform]
    split
    · rename_i h hfind
      refine hw.append rfl fun g hg => ?_
      cases hg
      rwa [HelperTable.find?_name hfind]
    · exact hw
  | terminate t => exact hw.modifyPoint fun _ => rfl

theorem sound_after (name : String) (orders : List Order) : (after name orders).Sound := by
  have hrun (w : Workshop) (hw : w.Sound) : (orders.foldl Workshop.perform w).Sound := by
    induction orders generalizing w with
    | nil => exact hw
    | cons o orders ih => exact ih _ (hw.perform o)
  exact hrun _ (sound_start name)

end Workshop

/-! ## Typed programs -/

/-- The values of a step have the types that its execution relies on. -/
def Step.Typed (types : Array Ty) : Step → Prop
  | .const r _ => types[r]? = some .int
  | .loadLocals r f | .loadStack r f => types[r]? = some .slice ∧ types[f]? = some .context
  | .loadIndex r f => types[r]? = some .int ∧ types[f]? = some .context
  | .storeLocals f x | .storeStack f x => types[f]? = some .context ∧ types[x]? = some .slice
  | .storeIndex f x => types[f]? = some .context ∧ types[x]? = some .int
  | .loadElem r a i => types[r]? = some .object ∧ types[a]? = some .slice ∧ types[i]? = some .int
  | .storeElem a i x => types[a]? = some .slice ∧ types[i]? = some .int ∧ types[x]? = some .object
  | .add r x y => types[r]? = some .int ∧ types[x]? = some .int ∧ types[y]? = some .int
  | .call r routine args =>
    TypedResult types r routine.signature.result ∧ Operands types args routine.signature.params

/-- The targets are among `n` blocks, and the other values have the types that leaving relies on. -/
def Exit.Typed (types : Array Ty) (n : Nat) : Exit → Prop
  | .jump target => target < n
  | .branch v taken notTaken => types[v]? = some .bool ∧ taken < n ∧ notTaken < n
  | .ret v => types[v]? = some .object
  | .retVoid | .trap _ => True

structure Program.Typed (types : Array Ty) (p : Program) : Prop where
  registers : p.registers = types.size
  params : Grows #[.void, .slice, .slice, .context] types
  nonempty : 0 < p.blocks.size
  steps : ∀ (i : Nat) b, p.blocks[i]? = some b → ∀ s ∈ b.steps, s.Typed types
  exits : ∀ (i : Nat) b, p.blocks[i]? = some b → b.exit.Typed types p.blocks.size

section Lowering

variable {f : Function} {vs : List ValueId} {ts : List Ty}

theorem Function.types_of_typeOf {v : ValueId} {t : Ty} (h : f.typeOf v = t) (ht : t ≠ .void) :
    f.types[v]? = some t := by
  unfold Function.typeOf at h
  cases hv : f.types[v]? with
  | none =>
    rw [hv] at h
    exact absurd h.symm ht
  | some t' =>
    rw [hv] at h
    exact congrArg some h

theorem Function.operands_of_checkTypes (hlen : vs.length = ts.length) (ht : ∀ t ∈ ts, t ≠ .void) (n : Nat)
    (h : f.checkTypes n vs ts = []) : Operands f.types vs ts := by
  induction vs generalizing ts n with
  | nil =>
    obtain rfl := List.length_eq_zero_iff.1 hlen.symm
    exact .nil
  | cons v vs ih =>
    obtain ⟨t, ts, rfl⟩ := List.exists_cons_of_length_eq_add_one hlen.symm
    obtain ⟨hhead, htail⟩ := List.forall_mem_cons.1 ht
    rw [Function.checkTypes] at h
    split at h
    · rename_i hv
      exact .cons (Function.types_of_typeOf hv hhead) (ih (Nat.succ.inj hlen) htail (n + 1) h)
    · cases h

theorem Function.operands_of_checkOperands (h : f.checkOperands vs ts = []) (ht : ∀ t ∈ ts, t ≠ .void) :
    Operands f.types vs ts := by
  unfold Function.checkOperands at h
  split at h
  · rename_i hlen
    exact Function.operands_of_checkTypes hlen ht 0 h
  · cases h

/-- A step of an instruction that was checked is typed. -/
theorem Function.typed_of_lowerInstr {i : Instr} {s : Step} {block : String} (hlow : lowerInstr block i = .ok s)
    (hcheck : f.checkInstr i = []) (hresult : TypedResult f.types i.result i.resultType)
    (hsound : ∀ h r, i.helper = some h → h.routine = some r → r.signature = h.signature) : s.Typed f.types := by
  have hoperands {vs : List ValueId} {ts : List Ty} (h : f.checkOperands vs ts = []) (ht : .void ∉ ts) :
      Operands f.types vs ts :=
    Function.operands_of_checkOperands h fun t hmem heq => ht (heq ▸ hmem)
  obtain ⟨op, result, args, constant, field, helper⟩ := i
  cases op with
  | constInt =>
    cases hlow
    exact hresult
  | loadField =>
    obtain _ | ⟨hf, _ | _⟩ := hoperands hcheck (by simp)
    cases field with
    | other n => cases hlow
    | _ =>
      cases hlow
      exact ⟨hresult, hf⟩
  | storeField =>
    cases field with
    | other n =>
      obtain _ | ⟨hf, _ | ⟨hx, _ | _⟩⟩ := hoperands hcheck (by simp [Field.type])
      cases hlow
    | _ =>
      obtain _ | ⟨hf, _ | ⟨hx, _ | _⟩⟩ := hoperands hcheck (by simp [Field.type])
      cases hlow
      exact ⟨hf, hx⟩
  | loadElem =>
    obtain _ | ⟨ha, _ | ⟨hi, _ | _⟩⟩ := hoperands hcheck (by simp)
    cases hlow
    exact ⟨hresult, ha, hi⟩
  | storeElem =>
    obtain _ | ⟨ha, _ | ⟨hi, _ | ⟨hx, _ | _⟩⟩⟩ := hoperands hcheck (by simp)
    cases hlow
    exact ⟨ha, hi, hx⟩
  | addInt =>
    obtain _ | ⟨hx, _ | ⟨hy, _ | _⟩⟩ := hoperands hcheck (by simp)
    cases hlow
    exact ⟨hresult, hx, hy⟩
  | call =>
    cases helper with
    | none => cases hcheck
    | some h =>
      cases hr : h.routine with
      | none => simp [lowerInstr, hr] at hlow
      | some r =>
        have hsig := hsound h r rfl hr
        have hargs : Operands f.types args r.signature.params := by
          rw [hsig]
          exact Function.operands_of_checkOperands hcheck (hsig ▸ Routine.ne_void r)
        simp only [lowerInstr, hr] at hlow
        split at hlow
        · cases hlow
        · cases hlow
          rw [Step.Typed, hsig]
          exact ⟨hresult, hsig ▸ hargs⟩
  | other n => cases hcheck

theorem Function.target_of_checkTargets {ids : List BlockId} (h : f.checkTargets ids = []) {id : BlockId}
    (hid : id ∈ ids) : id.toNat < f.blocks.size := by
  rw [Function.checkTargets, List.map_eq_nil_iff, List.filter_eq_nil_iff] at h
  cases hb : f.block? id with
  | none => exact absurd (by rw [hb]; rfl) (h id hid)
  | some b => exact (Function.target_of_block? hb).2

theorem Function.typed_of_checkTerm {t : Term} (h : f.checkTerm t = []) :
    (lowerTerm t).Typed f.types f.blocks.size := by
  cases t with
  | br target => exact Function.target_of_checkTargets h List.mem_cons_self
  | condBr v taken notTaken =>
    obtain ⟨hv, htargets⟩ := List.append_eq_nil_iff.1 h
    obtain _ | ⟨hv, -⟩ := Function.operands_of_checkOperands hv (by simp)
    exact ⟨hv, Function.target_of_checkTargets htargets (by simp), Function.target_of_checkTargets htargets (by simp)⟩
  | ret v =>
    obtain _ | ⟨hv, -⟩ := Function.operands_of_checkOperands h (by simp)
    exact hv
  | none | retVoid | unreachable | trap _ => trivial

theorem forall₂_of_mapM_ok {ε α β : Type} {g : α → Except ε β} {l : List α} {bs : List β} (h : l.mapM g = .ok bs) :
    List.Forall₂ (fun a b => g a = .ok b) l bs := by
  induction l generalizing bs with
  | nil =>
    cases h
    exact .nil
  | cons a l ih =>
    rw [List.mapM_cons] at h
    cases ha : g a with
    | error e =>
      rw [ha] at h
      cases h
    | ok b =>
      cases hl : l.mapM g with
      | error e =>
        rw [ha, hl] at h
        cases h
      | ok bs' =>
        rw [ha, hl] at h
        cases h
        exact .cons ha (ih hl)

/-- What was checked of a block. -/
theorem Function.of_checkBlock {b : Block} (h : f.checkBlock b = []) :
    (∀ i ∈ b.instrs, f.checkInstr i = []) ∧ f.checkTerm b.term = [] := by
  simp only [Function.checkBlock, List.append_eq_nil_iff] at h
  obtain ⟨⟨⟨hterms, -⟩, hinstrs⟩, hterm⟩ := h
  have hall (n : Nat) (is : List Instr) (h : f.checkInstrs n is = []) : ∀ i ∈ is, f.checkInstr i = [] := by
    induction is generalizing n with
    | nil => simp
    | cons i is ih =>
      obtain ⟨hi, his⟩ := List.append_eq_nil_iff.1 h
      exact List.forall_mem_cons.2 ⟨List.map_eq_nil_iff.1 hi, ih _ his⟩
  have hne : b.terms ≠ 0 := fun h0 => by simp [h0] at hterms
  rw [if_neg hne] at hterm
  exact ⟨fun i hi => hall 0 _ hinstrs i (Array.mem_toList_iff.2 hi), List.map_eq_nil_iff.1 hterm⟩

/-- A function is lowered block by block if it has no problems. -/
theorem Function.of_lower {p : Program} (h : f.lower = .ok p) :
    0 < f.blocks.size ∧ (∀ b ∈ f.blocks, f.checkBlock b = []) ∧ p.registers = f.types.size ∧
      List.Forall₂ (fun b b' => lowerBlock b = .ok b') f.blocks.toList p.blocks.toList := by
  unfold Function.lower at h
  split at h
  · cases h
  rename_i hne
  split at h
  · rename_i hproblems
    rw [Function.problems, if_neg hne, List.flatMap_eq_nil_iff] at hproblems
    cases hbs : f.blocks.toList.mapM lowerBlock with
    | error e =>
      rw [hbs] at h
      cases h
    | ok bs =>
      rw [hbs] at h
      cases h
      refine ⟨Nat.pos_of_ne_zero fun h0 => hne (by simpa using h0), fun b hb => ?_, rfl, forall₂_of_mapM_ok hbs⟩
      exact List.map_eq_nil_iff.1 (hproblems b (Array.mem_toList_iff.2 hb))
  · cases h

theorem of_lowerBlock {b : Block} {b' : ProgramBlock} (h : lowerBlock b = .ok b') :
    List.Forall₂ (fun i s => lowerInstr b.name i = .ok s) b.instrs.toList b'.steps ∧ b'.exit = lowerTerm b.term := by
  unfold lowerBlock at h
  cases hs : b.instrs.toList.mapM (lowerInstr b.name) with
  | error e =>
    rw [hs] at h
    cases h
  | ok steps =>
    rw [hs] at h
    cases h
    exact ⟨forall₂_of_mapM_ok hs, rfl⟩

theorem exists_of_forall₂ {α β : Type} {R : α → β → Prop} {l : List α} {l' : List β} (h : List.Forall₂ R l l')
    {b : β} (hb : b ∈ l') : ∃ a ∈ l, R a b := by
  induction h with
  | nil => cases hb
  | cons hab _ ih =>
    rcases List.mem_cons.1 hb with rfl | hb
    · exact ⟨_, List.mem_cons_self, hab⟩
    · obtain ⟨a, ha, hr⟩ := ih hb
      exact ⟨a, List.mem_cons_of_mem _ ha, hr⟩

end Lowering

/-- The instructions of what was built assign their results to values of the right types, and their helpers
have routines of the right signatures. -/
theorem Workshop.Sound.function {w : Workshop} (hw : w.Sound) {b' : Block} (hb' : b' ∈ w.function.blocks) {i' : Instr}
    (hi' : i' ∈ b'.instrs) : TypedResult w.function.types i'.result i'.resultType ∧
      ∀ h r, i'.helper = some h → h.routine = some r → r.signature = h.signature := by
  obtain ⟨b, hb, rfl⟩ := Array.mem_map.1 hb'
  obtain ⟨i, hi, rfl⟩ := Array.mem_map.1 hi'
  have hresult : (i.updated w.table).resultType = i.resultType := by
    obtain ⟨op, result, args, constant, field, helper⟩ := i
    cases op with
    | call =>
      cases helper with
      | none => rfl
      | some h =>
        obtain ⟨h', hfind, hsig⟩ := hw.helpers b hb _ hi h rfl
        simp [Instr.updated, Instr.resultType, hfind, hsig]
    | _ => rfl
  refine ⟨hresult ▸ hw.results b hb i hi, fun h r hh hr => ?_⟩
  obtain ⟨h₀, hh₀, rfl⟩ := Option.map_eq_some_iff.1 hh
  obtain ⟨h', hfind, -⟩ := hw.helpers b hb i hi h₀ hh₀
  rw [hfind] at hr ⊢
  exact hw.table _ h' hfind r hr

theorem Workshop.Sound.typed {w : Workshop} (hw : w.Sound) {p : Program} (hp : w.function.lower = .ok p) :
    p.Typed w.function.types := by
  obtain ⟨hpos, hcheck, hregs, hblocks⟩ := Function.of_lower hp
  have hsize : w.function.blocks.size = p.blocks.size := by simpa using hblocks.length_eq
  have hblock {i : Nat} {b' : ProgramBlock} (hb' : p.blocks[i]? = some b') :
      ∃ b ∈ w.function.blocks, lowerBlock b = .ok b' := by
    obtain ⟨b, hb, hlow⟩ := exists_of_forall₂ hblocks (Array.mem_toList_iff.2 (Array.mem_of_getElem? hb'))
    exact ⟨b, Array.mem_toList_iff.1 hb, hlow⟩
  refine ⟨hregs, hw.params, hsize ▸ hpos, fun i b' hb' s hs => ?_, fun i b' hb' => ?_⟩
  · obtain ⟨b, hb, hlow⟩ := hblock hb'
    obtain ⟨k, hk, hstep⟩ := exists_of_forall₂ (of_lowerBlock hlow).1 hs
    obtain ⟨hassigned, hsound⟩ := hw.function hb (Array.mem_toList_iff.1 hk)
    exact Function.typed_of_lowerInstr hstep ((Function.of_checkBlock (hcheck b hb)).1 k (Array.mem_toList_iff.1 hk))
      hassigned hsound
  · obtain ⟨b, hb, hlow⟩ := hblock hb'
    rw [(of_lowerBlock hlow).2, ← hsize]
    exact Function.typed_of_checkTerm (Function.of_checkBlock (hcheck b hb)).2

/-! ## Typed registers -/

variable {σ : Type} {types : Array Ty} {regs regs' : Registers} {host : Host σ} {mc mc' : Machine σ} {v : ValueId}
  {ty : Ty} {w : Word}

structure Registers.Typed (types : Array Ty) (regs : Registers) : Prop where
  size : regs.size = types.size
  fits : ∀ v, (regs.at v).Fits (types[v]?.getD .void)

namespace Registers

theorem at_setIfInBounds (regs : Registers) (r v : ValueId) (w : Word) :
    Registers.at (regs.setIfInBounds r w) v = if v = r ∧ r < regs.size then w else regs.at v := by
  simp only [Registers.at, Array.getElem?_setIfInBounds]
  by_cases hv : r = v
  · subst hv
    by_cases hr : r < regs.size <;> simp [hr]
  · simp [hv, Ne.symm hv]

theorem Typed.at (h : regs.Typed types) (hv : types[v]? = some ty) : (regs.at v).Fits ty := by
  have hfits := h.fits v
  rwa [hv] at hfits

theorem Typed.lt (h : regs.Typed types) (hv : types[v]? = some ty) : v < regs.size := by
  rw [h.size]
  exact (Array.getElem?_eq_some_iff.1 hv).1

theorem Typed.set (h : regs.Typed types) (hv : types[v]? = some ty) (hw : w.hasType ty = true) :
    Registers.Typed types (regs.setIfInBounds v w) where
  size := by rw [Array.size_setIfInBounds, h.size]
  fits u := by
    rw [at_setIfInBounds]
    split
    · rename_i hu
      rw [hu.1, hv]
      exact .inr hw
    · exact h.fits u

end Registers

/-- The registers that a step reads or writes. -/
def Step.registers : Step → List ValueId
  | .const r _ => [r]
  | .loadLocals r f | .loadStack r f | .loadIndex r f => [r, f]
  | .storeLocals f x | .storeStack f x | .storeIndex f x => [f, x]
  | .loadElem r a i => [r, a, i]
  | .storeElem a i x => [a, i, x]
  | .add r x y => [r, x, y]
  | .call r _ args => if r = 0 then args else r :: args

/-- The register from which a step takes the frame. -/
def Step.frame? : Step → Option ValueId
  | .loadLocals _ f | .loadStack _ f | .loadIndex _ f | .storeLocals f _ | .storeStack f _ | .storeIndex f _ => some f
  | _ => none

/-- Why a step can fail: a slot does not exist, nothing was assigned to the register of the frame, or the routine
that it calls fails. -/
inductive Step.Fails (host : Host σ) (regs : Registers) (mc : Machine σ) : Step → Fault → Prop
  | load {r a i : ValueId} (h : mc.frame.slot? (regs.at a).toArea (regs.at i).toInt = none) :
    Fails host regs mc (.loadElem r a i) .bounds
  | store {a i x : ValueId} (h : mc.frame.hasSlot (regs.at a).toArea (regs.at i).toInt = false) :
    Fails host regs mc (.storeElem a i x) .bounds
  | unassigned {s : Step} {f : ValueId} (hf : s.frame? = some f) (h : regs.at f = .blank) : Fails host regs mc s .bounds
  | routine {r : ValueId} {routine : Routine} {args : List ValueId} {e : Fault} {mc' : Machine σ}
    (h : routine.call host (args.map regs.at) mc = .error e mc') : Fails host regs mc (.call r routine args) e

/-- The registers that leaving a block reads. -/
def Exit.registers : Exit → List ValueId
  | .branch v _ _ | .ret v => [v]
  | .jump _ | .retVoid | .trap _ => []

namespace Step

variable {s : Step}

theorem Typed.lt (hs : s.Typed types) (hregs : regs.Typed types) (hv : v ∈ s.registers) : v < regs.size := by
  have hargs {vs : List ValueId} {ts : List Ty} (h : Operands types vs ts) (hv : v ∈ vs) : v < regs.size := by
    induction h with
    | nil => cases hv
    | cons hu _ ih =>
      rcases List.mem_cons.1 hv with rfl | hv
      · exact hregs.lt hu
      · exact ih hv
  cases s with
  | call r routine args =>
    obtain ⟨hr, hop⟩ := hs
    simp only [registers] at hv
    split at hv
    · exact hargs hop hv
    · rename_i h0
      rcases List.mem_cons.1 hv with rfl | hv
      · unfold TypedResult at hr
        split at hr
        · exact absurd hr h0
        · exact hregs.lt hr
      · exact hargs hop hv
  | const r n =>
    obtain rfl := List.mem_singleton.1 hv
    exact hregs.lt hs
  | loadLocals r f | loadStack r f | loadIndex r f | storeLocals f x | storeStack f x | storeIndex f x =>
    rcases List.mem_cons.1 hv with rfl | hv
    · exact hregs.lt hs.1
    · obtain rfl := List.mem_singleton.1 hv
      exact hregs.lt hs.2
  | loadElem r a i | storeElem a i x | add r x y =>
    rcases List.mem_cons.1 hv with rfl | hv
    · exact hregs.lt hs.1
    rcases List.mem_cons.1 hv with rfl | hv
    · exact hregs.lt hs.2.1
    · obtain rfl := List.mem_singleton.1 hv
      exact hregs.lt hs.2.2

/-- A routine gets as many words as it takes, of the types that it takes. -/
theorem Typed.fits {r : ValueId} {routine : Routine} {args : List ValueId} (hs : (Step.call r routine args).Typed types)
    (hregs : regs.Typed types) : List.Forall₂ Word.Fits (args.map regs.at) routine.signature.params := by
  rw [List.forall₂_map_left_iff]
  exact hs.2.imp fun _ _ hv => hregs.at hv

theorem ends_checkFrame (h : w.Fits .context) :
    Ends (checkFrame w) mc (fun e _ => w = .blank ∧ e = .bounds) fun _ mc' => mc' = mc := by
  rcases h with rfl | h
  · exact ⟨rfl, rfl⟩
  · cases w <;> cases h
    rfl

theorem Fails.of_frame {f : ValueId} {e : Fault} (hf : s.frame? = some f) (h : regs.at f = .blank ∧ e = .bounds) :
    Fails host regs mc s e := by
  obtain ⟨hblank, rfl⟩ := h
  exact .unassigned hf hblank

/-- A step keeps the types of the registers, or it fails for one of the reasons. -/
theorem Typed.ends (hs : s.Typed types) (hregs : regs.Typed types) :
    Ends (s.exec host regs) mc (fun e _ => s.Fails host regs mc e) fun regs' _ => regs'.Typed types := by
  have hframe {f : ValueId} {x : Act σ Registers} (hf : s.frame? = some f) (htype : types[f]? = some .context)
      (hx : Ends x mc (fun e _ => s.Fails host regs mc e) fun regs' _ => regs'.Typed types) :
      Ends (do checkFrame (regs.at f); x) mc (fun e _ => s.Fails host regs mc e) fun regs' _ => regs'.Typed types := by
    refine Ends.bind ((ends_checkFrame (hregs.at htype)).mono (fun e _ he => .of_frame hf he) fun _ _ h => h) ?_
    rintro _ _ rfl
    exact hx
  cases s with
  | const r n => exact hregs.set hs rfl
  | loadLocals r f | loadStack r f | loadIndex r f => exact hframe rfl hs.2 (hregs.set hs.1 rfl)
  | storeLocals f x | storeStack f x | storeIndex f x => exact hframe rfl hs.1 hregs
  | add r x y => exact hregs.set hs.1 rfl
  | loadElem r a i =>
    simp only [exec, ends_bind]
    cases hslot : mc.frame.slot? (regs.at a).toArea (regs.at i).toInt with
    | none => exact ends_of_error (by simp only [readSlot, hslot]; rfl) (.load hslot)
    | some x => exact ends_of_ok (by simp only [readSlot, hslot]; rfl) (hregs.set hs.1 rfl)
  | storeElem a i x =>
    simp only [exec, ends_bind]
    cases hslot : mc.frame.hasSlot (regs.at a).toArea (regs.at i).toInt with
    | false => exact ends_of_error (by simp only [writeSlot, hslot]; rfl) (.store hslot)
    | true => exact ends_of_ok (by simp only [writeSlot, hslot]; rfl) hregs
  | call r routine args =>
    simp only [exec, ends_bind]
    cases hcall : routine.call host (args.map regs.at) mc with
    | error e mc₁ => exact ends_of_error hcall (.routine hcall)
    | ok w mc₁ =>
      refine ends_of_ok hcall ?_
      have hr := hs.1
      unfold TypedResult at hr
      rw [ends_pure]
      split
      · exact hregs
      · rename_i h0
        split at hr
        · exact absurd hr h0
        · rename_i hvoid
          exact hregs.set hr (Routine.hasType_of_call hcall hvoid)

end Step

/-! ## Runs -/

namespace Program

variable {p : Program} {i : Nat} {rest : List Step}

/-- A run of the program from a machine comes to the point before the rest of the steps of a block. -/
inductive Reaches (host : Host σ) (p : Program) (mc : Machine σ) : Nat → List Step → Registers → Machine σ → Prop
  | start {b : ProgramBlock} (hb : p.blocks[0]? = some b) : Reaches host p mc 0 b.steps (p.initialRegisters mc.frame) mc
  | step {i : Nat} {s : Step} {rest : List Step} {regs regs' : Registers} {mc₁ mc₂ : Machine σ}
    (h : Reaches host p mc i (s :: rest) regs mc₁) (hs : s.exec host regs mc₁ = .ok regs' mc₂) :
    Reaches host p mc i rest regs' mc₂
  | leave {i j : Nat} {b b' : ProgramBlock} {regs : Registers} {mc₁ : Machine σ} (h : Reaches host p mc i [] regs mc₁)
    (hb : p.blocks[i]? = some b) (hgo : b.exit.leave regs = .goto j) (hb' : p.blocks[j]? = some b') :
    Reaches host p mc j b'.steps regs mc₁

theorem Typed.initialRegisters (hp : p.Typed types) (f : Frame) : (p.initialRegisters f).Typed types := by
  obtain ⟨ts, hts⟩ := hp.params
  have htype (v : ValueId) (hv : v < 4) : types[v]? = (#[.void, .slice, .slice, .context] : Array Ty)[v]? := by
    rw [hts, Array.getElem?_append_left hv]
  have hblank : Registers.Typed types (Array.replicate p.registers Word.blank) := by
    refine ⟨by rw [Array.size_replicate, hp.registers], fun v => .inl ?_⟩
    simp only [Registers.at, Array.getElem?_replicate]
    split <;> rfl
  exact ((hblank.set (htype paramLocals (by decide)) rfl).set (htype paramStack (by decide)) rfl).set
    (htype paramFrame (by decide)) rfl

theorem Reaches.typed (hp : p.Typed types) (h : Reaches host p mc i rest regs mc') :
    regs.Typed types ∧ ∃ b, p.blocks[i]? = some b ∧ rest <:+ b.steps := by
  induction h with
  | start hb => exact ⟨hp.initialRegisters _, _, hb, List.suffix_refl _⟩
  | step _ hs ih =>
    obtain ⟨hregs, b, hb, hsuffix⟩ := ih
    have htyped := hp.steps _ b hb _ (hsuffix.mem List.mem_cons_self)
    exact ⟨(htyped.ends hregs).ok hs, b, hb, (List.suffix_cons _ _).trans hsuffix⟩
  | leave _ _ _ hb' ih => exact ⟨ih.1, _, hb', List.suffix_refl _⟩

/-- Why a run can stop before its end. -/
inductive Stops (host : Host σ) (p : Program) (mc : Machine σ) : Fault → Prop
  /-- It was given too few steps. -/
  | exhausted : Stops host p mc .exhausted
  | failed {i : Nat} {s : Step} {rest : List Step} {regs : Registers} {mc₁ : Machine σ} {e : Fault}
    (h : Reaches host p mc i (s :: rest) regs mc₁) (hs : s.Fails host regs mc₁ e) : Stops host p mc e
  | trapped {i : Nat} {b : ProgramBlock} {regs : Registers} {mc₁ : Machine σ} {t : Trap}
    (h : Reaches host p mc i [] regs mc₁) (hb : p.blocks[i]? = some b) (ht : b.exit = .trap t) : Stops host p mc (.trap t)

theorem Typed.ends_execSteps (hp : p.Typed types) {mc₁ : Machine σ} (h : Reaches host p mc i rest regs mc₁) :
    Ends (execSteps host rest regs) mc₁ (fun e _ => Stops host p mc e) fun regs' mc₂ =>
      Reaches host p mc i [] regs' mc₂ := by
  induction rest generalizing regs mc₁ with
  | nil => exact h
  | cons s rest ih =>
    obtain ⟨hregs, b, hb, hsuffix⟩ := h.typed hp
    have hstep : Ends (s.exec host regs) mc₁ (fun e _ => s.Fails host regs mc₁ e) fun regs' _ => regs'.Typed types :=
      (hp.steps i b hb s (hsuffix.mem List.mem_cons_self)).ends hregs
    rw [execSteps, ends_bind]
    cases hs : s.exec host regs mc₁ with
    | error e mc₂ => exact ends_of_error hs (.failed h (hstep.error hs))
    | ok regs' mc₂ => exact ends_of_ok hs (ih (h.step hs))

theorem Exit.Typed.lt {e : Exit} {n j : Nat} (he : e.Typed types n) (hgo : e.leave regs = .goto j) : j < n := by
  cases e with
  | jump target =>
    cases hgo
    exact he
  | branch v taken notTaken =>
    cases hgo
    split
    · exact he.2.1
    · exact he.2.2
  | ret v | retVoid | trap t => cases hgo

/-- A run that stops before its end does so for one of the reasons. -/
theorem Typed.stops_of_run (hp : p.Typed types) {b : ProgramBlock} {mc₁ : Machine σ} {fuel : Nat} {e : Fault}
    (h : Reaches host p mc i b.steps regs mc₁) (hb : p.blocks[i]? = some b)
    (hrun : p.run host fuel i regs mc₁ = .error e mc') : Stops host p mc e := by
  induction fuel generalizing i regs mc₁ b with
  | zero =>
    cases hrun
    exact .exhausted
  | succ fuel ih =>
    have hsteps := hp.ends_execSteps h
    rw [run, hb] at hrun
    simp only at hrun
    cases hexec : execSteps host b.steps regs mc₁ with
    | error e' mc₂ =>
      rw [hexec] at hrun
      cases hrun
      exact hsteps.error hexec
    | ok regs' mc₂ =>
      have hend := hsteps.ok hexec
      rw [hexec] at hrun
      simp only at hrun
      cases hleave : b.exit.leave regs' with
      | goto j =>
        rw [hleave] at hrun
        have hj := Exit.Typed.lt (hp.exits i b hb) hleave
        have hb' := Array.getElem?_eq_getElem hj
        exact ih (hend.leave hb hleave hb') hb' hrun
      | done v =>
        rw [hleave] at hrun
        cases hrun
      | trapped t =>
        rw [hleave] at hrun
        cases hrun
        refine .trapped hend hb ?_
        cases hexit : b.exit with
        | trap t' =>
          rw [hexit] at hleave
          cases hleave
          rfl
        | _ =>
          rw [hexit] at hleave
          cases hleave

/-- What is safe at a point of a run: the block exists, the registers hold words of their types, the registers that are
used next exist, a routine gets the words it takes, a step fails only for the known reasons, and the block is left
for one that exists. -/
structure SafeAt (host : Host σ) (types : Array Ty) (p : Program) (i : Nat) (rest : List Step) (regs : Registers)
    (mc : Machine σ) : Prop where
  block : ∃ b, p.blocks[i]? = some b ∧ rest <:+ b.steps
  typed : regs.size = p.registers ∧ ∀ v, (regs.at v).Fits (types[v]?.getD .void)
  registers : ∀ s ∈ rest.head?, ∀ v ∈ s.registers, v < regs.size
  words : ∀ r routine args, rest.head? = some (.call r routine args) →
    List.Forall₂ Word.Fits (args.map regs.at) routine.signature.params
  failures : ∀ s ∈ rest.head?, ∀ e mc', s.exec host regs mc = .error e mc' → s.Fails host regs mc e
  exits : ∀ b, p.blocks[i]? = some b → (∀ v ∈ b.exit.registers, v < regs.size) ∧
    ∀ j, b.exit.leave regs = .goto j → j < p.blocks.size

theorem Reaches.safeAt (hp : p.Typed types) (h : Reaches host p mc i rest regs mc') :
    SafeAt host types p i rest regs mc' := by
  obtain ⟨hregs, b, hb, hsuffix⟩ := h.typed hp
  have hstep {s : Step} (hs : s ∈ rest.head?) : s.Typed types :=
    hp.steps i b hb s (hsuffix.mem (List.mem_of_mem_head? hs))
  refine ⟨⟨b, hb, hsuffix⟩, ⟨hregs.size.trans hp.registers.symm, hregs.fits⟩, fun s hs v hv => (hstep hs).lt hregs hv,
    fun r routine args hs => (hstep hs).fits hregs, fun s hs e mc₁ he => ((hstep hs).ends hregs).error he, fun b' hb' => ?_⟩
  have hexit := hp.exits i b' hb'
  refine ⟨fun v hv => ?_, fun j hgo => Exit.Typed.lt hexit hgo⟩
  cases he : b'.exit with
  | branch u taken notTaken =>
    rw [he] at hexit hv
    obtain rfl := List.mem_singleton.1 hv
    exact hregs.lt hexit.1
  | ret u =>
    rw [he] at hexit hv
    obtain rfl := List.mem_singleton.1 hv
    exact hregs.lt hexit
  | jump target | retVoid | trap t =>
    rw [he] at hv
    cases hv

end Program

/-- A function that was built in a workshop and can be lowered is safe at all points of all its runs, and its runs
stop only for the known reasons. -/
theorem built_program_type_safe (name : String) (orders : List Order) {p : Program}
    (hlower : (Workshop.after name orders).function.lower = .ok p) (host : Host σ) (mc : Machine σ) :
    (∃ b regs, Program.Reaches host p mc 0 b regs mc) ∧
    (∀ i rest regs mc', Program.Reaches host p mc i rest regs mc' →
      Program.SafeAt host (Workshop.after name orders).function.types p i rest regs mc') ∧
    ∀ fuel e mc', p.start host fuel mc = .error e mc' → Program.Stops host p mc e := by
  have hp := (Workshop.sound_after name orders).typed hlower
  have hfirst := Array.getElem?_eq_getElem hp.nonempty
  refine ⟨⟨_, _, .start hfirst⟩, fun i rest regs mc' h => h.safeAt hp, fun fuel e mc' hrun => ?_⟩
  exact hp.stops_of_run (.start hfirst) hfirst hrun

/-- A number is boxed by a helper that is bound after its call was written. -/
def boxingOrders : List Order :=
  [.newBlock "entry", .setPoint 0, .constInt 5, .declare "box" ⟨[.int], .object⟩, .call "box" [4],
    .bind "box" (.routine .box), .terminate (.ret 5)]

def boxingProgram : Program := ⟨6, #[⟨[.const 4 5, .call 5 .box [4]], .ret 5⟩]⟩

/-- A machine without cells and slots. -/
def bareMachine : Machine Unit := ⟨{}, { firstSlots := #[], secondSlots := #[] }, ()⟩

theorem built_program_type_safe_boxing :
    (Workshop.after "f" boxingOrders).function.lower = .ok boxingProgram ∧
    ∀ fuel e mc', boxingProgram.start (fun _ _ _ _ => throw .exhausted) fuel bareMachine = .error e mc' →
      Program.Stops (fun _ _ _ _ => throw .exhausted) boxingProgram bareMachine e := by
  have hlower : (Workshop.after "f" boxingOrders).function.lower = .ok boxingProgram := by cbv
  exact ⟨hlower, (built_program_type_safe "f" boxingOrders hlower _ _).2.2⟩

end IR

end MethodJit
