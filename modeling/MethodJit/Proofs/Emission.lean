import MethodJit.Compiler.Instruction
import MethodJit.Proofs.Functions
import MethodJit.Proofs.Outcome

/-!
# Sound emitters

An emitter is sound if the function that it builds is, and if the pending values have the types that they
are taken for. Emitting code into an open block never fails on a sound emitter, and leaves it sound: it
appends sound instructions to the block and changes only what is pending.
-/

namespace MethodJit.Compiler

open IR

variable {e e' e'' : Emitter} {E : Fault → Emitter → Prop}

def Emitter.types (e : Emitter) : Array Ty := e.function.types

/-- The emitter after instructions with results of the types were appended at the insertion point. -/
def Emitter.extend (e : Emitter) (ts : List Ty) (is : List Instr) : Emitter :=
  { e with builder := { e.builder with function := { e.function with
      blocks := e.function.blocks.modify e.builder.point.toNat fun b =>
        { b with instrs := b.instrs ++ is.toArray }
      types := e.function.types ++ ts.toArray } } }

/-- The block at the insertion point exists and has no terminator. -/
def Emitter.Open (e : Emitter) : Prop :=
  ∃ b, e.function.block? e.builder.point = some b ∧ b.terms = 0

/-! ## Appending instructions -/

@[simp] theorem extend_types (ts : List Ty) (is : List Instr) :
    (e.extend ts is).types = e.types ++ ts.toArray := rfl

@[simp] theorem extend_point (ts : List Ty) (is : List Instr) :
    (e.extend ts is).builder.point = e.builder.point := rfl

@[simp] theorem extend_operands (ts : List Ty) (is : List Instr) :
    (e.extend ts is).operands = e.operands := rfl

@[simp] theorem extend_locals (ts : List Ty) (is : List Instr) :
    (e.extend ts is).locals = e.locals := rfl

@[simp] theorem extend_numBlocks (ts : List Ty) (is : List Instr) :
    (e.extend ts is).function.blocks.size = e.function.blocks.size := by
  simp [Emitter.extend, Emitter.function]

theorem extend_nil : e.extend [] [] = e := by
  have hmodify (bs : Array Block) (i : Nat) : (bs.modify i fun b => b) = bs := by
    ext j h₁ h₂
    · simp
    · simp [Array.getElem_modify]
  simp [Emitter.extend, Emitter.function, hmodify]

theorem extend_extend (ts ts' : List Ty) (is is' : List Instr) :
    (e.extend ts is).extend ts' is' = e.extend (ts ++ ts') (is ++ is') := by
  have hmodify (bs : Array Block) (i : Nat) (f g : Block → Block) :
      (bs.modify i f).modify i g = bs.modify i fun b => g (f b) := by
    ext j h₁ h₂
    · simp
    · by_cases hj : i = j <;> simp [Array.getElem_modify, hj]
  simp [Emitter.extend, Emitter.function, hmodify]

theorem extend_blocks (ts : List Ty) (is : List Instr) (i : Nat) :
    (e.extend ts is).function.blocks[i]? = (e.function.blocks[i]?).map fun b =>
      if e.builder.point.toNat = i then { b with instrs := b.instrs ++ is.toArray } else b := by
  simp only [Emitter.extend, Emitter.function, Array.getElem?_modify]
  split <;> simp

theorem Emitter.Open.extend (h : e.Open) (ts : List Ty) (is : List Instr) :
    (e.extend ts is).Open := by
  obtain ⟨b, hb, h0⟩ := h
  obtain ⟨hp, hb⟩ := Function.block?_eq_some.1 hb
  refine ⟨{ b with instrs := b.instrs ++ is.toArray }, Function.block?_eq_some.2 ⟨hp, ?_⟩, h0⟩
  simp [extend_blocks, hb]

/-- The value that a result of a type is given. -/
def Emitter.fresh (e : Emitter) (t : Ty) : ValueId := if t = .void then 0 else e.types.size

/-- The types of the values that a result of a type adds. -/
def resultTypes (t : Ty) : List Ty := if t = .void then [] else [t]

theorem types_fresh {t : Ty} (ht : t ≠ .void) (is : List Instr) :
    (e.extend (resultTypes t) is).types[e.fresh t]? = some t := by
  simp [resultTypes, Emitter.fresh, ht]

theorem newValue_eq (f : Function) (point : BlockId) (t : Ty) :
    Build.newValue t ⟨f, point⟩ = .ok (if t = .void then 0 else f.types.size)
      ⟨{ f with types := f.types ++ (resultTypes t).toArray }, point⟩ := by
  cases t <;> simp [Build.newValue, resultTypes]

theorem modifyPoint_eq {f : Function} {point : BlockId} {b : Block} (hb : f.block? point = some b)
    (g : Block → Block) :
    Build.modifyPoint g ⟨f, point⟩ = .ok () ⟨f.modifyBlock point g, point⟩ := by
  simp only [Build.modifyPoint, hb]

/-- Appending to an open block. -/
theorem build_append (h : e.Open) (t : Ty) (i : Instr) :
    Emit.build (.append t i) e =
      .ok (e.fresh t) (e.extend (resultTypes t) [{ i with result := e.fresh t }]) := by
  obtain ⟨⟨f, point⟩, method, blocks, offset, operands, locals, log⟩ := e
  obtain ⟨b, hb, h0⟩ := h
  change f.block? point = some b at hb
  have hmodify (i : Instr) :
      f.blocks.modify point.toNat (Build.appendTo i) =
        f.blocks.modify point.toNat fun b => { b with instrs := b.instrs ++ #[i] } := by
    obtain ⟨-, hb⟩ := Function.block?_eq_some.1 hb
    apply Array.ext_getElem?
    intro j
    simp only [Array.getElem?_modify]
    split
    · subst j
      simp [hb, Build.appendTo, h0]
    · rfl
  have hblock (ts : Array Ty) : ({ f with types := ts } : Function).block? point = some b := hb
  simp only [Emit.build, Build.append, bind, EStateM.bind, newValue_eq, modifyPoint_eq (hblock _)]
  simp only [Function.modifyBlock, hmodify]
  rfl

/-! ## Sound emitters -/

/-- The entry is an object or a number, of a value of that type. -/
def Entry.Typed (types : Array Ty) (x : Entry) : Prop :=
  x.kind = .object ∧ types[x.value]? = some .object ∨ x.kind = .int ∧ types[x.value]? = some .int

/-- Nothing is known of the local, or its value is an object. -/
def Slot.Typed (types : Array Ty) (s : Slot) : Prop :=
  s = {} ∨ s.entry.kind = .object ∧ types[s.entry.value]? = some .object

structure Emitter.Sound (e : Emitter) : Prop where
  function : e.function.Sound
  point : ∃ b, e.function.block? e.builder.point = some b
  operands : ∀ x ∈ e.operands, x.Typed e.types
  slots : ∀ s ∈ e.locals, s.Typed e.types
  numLocals : e.locals.size = e.method.locals.toNatClampNeg
  targets : ∀ offset id, e.blocks.get? offset = some id → Target e.function.blocks.size id

/-- The emitter is sound and can emit code into its block. -/
structure Emitter.Ready (e : Emitter) : Prop extends e.Sound where
  isOpen : e.Open

/-- Sound instructions were appended, and what is pending may have changed. -/
def Emits (e e' : Emitter) : Prop :=
  ∃ ts is, e' = { e.extend ts is with operands := e'.operands, locals := e'.locals } ∧
    ∀ i ∈ is, i.Sound e'.types

/-- Sound instructions were appended, and nothing else changed. -/
def Issues (e e' : Emitter) : Prop :=
  ∃ ts is, e' = e.extend ts is ∧ ∀ i ∈ is, i.Sound e'.types

theorem Entry.Typed.grow {types types' : Array Ty} (h : Grows types types') {x : Entry}
    (hx : x.Typed types) : x.Typed types' :=
  hx.imp (fun hx => ⟨hx.1, h.getElem? hx.2⟩) fun hx => ⟨hx.1, h.getElem? hx.2⟩

theorem Slot.Typed.grow {types types' : Array Ty} (h : Grows types types') {s : Slot}
    (hs : s.Typed types) : s.Typed types' :=
  hs.imp_right fun hs => ⟨hs.1, h.getElem? hs.2⟩

theorem Emits.grows (h : Emits e e') : Grows e.types e'.types := by
  obtain ⟨ts, is, heq, -⟩ := h
  rw [heq]
  exact ⟨ts.toArray, rfl⟩

theorem Issues.emits (h : Issues e e') : Emits e e' := by
  obtain ⟨ts, is, rfl, hi⟩ := h
  exact ⟨ts, is, rfl, hi⟩

theorem Issues.grows (h : Issues e e') : Grows e.types e'.types := h.emits.grows

theorem Issues.refl (e : Emitter) : Issues e e :=
  ⟨[], [], extend_nil.symm, fun _ h => by cases h⟩

theorem Emits.trans (h : Emits e e') (h' : Emits e' e'') : Emits e e'' := by
  have hgrows := h'.grows
  obtain ⟨ts, is, heq, hi⟩ := h
  obtain ⟨ts', is', heq', hi'⟩ := h'
  refine ⟨ts ++ ts', is ++ is', ?_, ?_⟩
  · rw [← extend_extend]
    rw [heq] at heq'
    exact heq'
  · intro i hmem
    rcases List.mem_append.1 hmem with hmem | hmem
    · exact (hi i hmem).grow hgrows
    · exact hi' i hmem

theorem Issues.trans (h : Issues e e') (h' : Issues e' e'') : Issues e e'' := by
  have hgrows := h'.grows
  obtain ⟨ts, is, rfl, hi⟩ := h
  obtain ⟨ts', is', rfl, hi'⟩ := h'
  refine ⟨ts ++ ts', is ++ is', extend_extend .., ?_⟩
  intro i hmem
  rcases List.mem_append.1 hmem with hmem | hmem
  · exact (hi i hmem).grow hgrows
  · exact hi' i hmem

theorem Function.Sound.extend (h : e.function.Sound) (ts : List Ty) (is : List Instr)
    (hi : ∀ i ∈ is, i.Sound (e.extend ts is).types) : (e.extend ts is).function.Sound := by
  have hgrows : Grows e.types (e.extend ts is).types := ⟨ts.toArray, rfl⟩
  refine ⟨?_, ?_⟩
  · obtain ⟨ts', hts⟩ := h.params
    exact ⟨ts' ++ ts.toArray, by
      change e.function.types ++ ts.toArray = _
      rw [hts, Array.append_assoc]⟩
  · intro b hb
    obtain ⟨i, hb⟩ := Array.mem_iff_getElem?.1 hb
    rw [extend_blocks, Option.map_eq_some_iff] at hb
    obtain ⟨b₀, hb₀, rfl⟩ := hb
    have hs := (h.blocks b₀ (Array.mem_of_getElem? hb₀)).grow hgrows
      (Nat.le_of_eq (extend_numBlocks ts is).symm)
    split
    · refine ⟨fun i hmem => ?_, hs.afterTerms, hs.term⟩
      rcases Array.mem_append.1 hmem with hmem | hmem
      · exact hs.instrs i hmem
      · exact hi i (List.mem_toArray.1 hmem)
    · exact hs

/-- What is emitted leaves a ready emitter ready, if what is pending then has its types. -/
theorem Emits.ready (h : Emits e e') (hr : e.Ready) (hops : ∀ x ∈ e'.operands, x.Typed e'.types)
    (hslots : ∀ s ∈ e'.locals, s.Typed e'.types) (hsize : e'.locals.size = e.locals.size) :
    e'.Ready := by
  obtain ⟨ts, is, heq, hi⟩ := h
  have hfun : e'.function = (e.extend ts is).function := by rw [heq]; rfl
  have hpoint : e'.builder.point = e.builder.point := by rw [heq]; rfl
  have hopen : e'.Open := by
    have := hr.isOpen.extend ts is
    rw [heq]
    exact this
  refine { function := ?_, point := ?_, operands := hops, slots := hslots, numLocals := ?_,
           targets := ?_, isOpen := hopen }
  · rw [hfun]
    exact Function.Sound.extend hr.function ts is fun i hmem => by
      have := hi i hmem
      rw [heq] at this
      exact this
  · obtain ⟨b, hb, -⟩ := hopen
    exact ⟨b, hb⟩
  · rw [hsize, hr.numLocals, heq]
    rfl
  · intro offset id hid
    rw [hfun, extend_numBlocks]
    exact hr.targets offset id (by rw [heq] at hid; exact hid)

theorem Issues.ready (h : Issues e e') (hr : e.Ready) : e'.Ready := by
  have hgrows := h.grows
  refine h.emits.ready hr ?_ ?_ ?_
  all_goals obtain ⟨ts, is, rfl, -⟩ := h
  · exact fun x hx => (hr.operands x hx).grow hgrows
  · exact fun s hs => (hr.slots s hs).grow hgrows
  · rfl

theorem Issues.operands (h : Issues e e') : e'.operands = e.operands := by
  obtain ⟨ts, is, rfl, -⟩ := h
  rfl

theorem Issues.locals (h : Issues e e') : e'.locals = e.locals := by
  obtain ⟨ts, is, rfl, -⟩ := h
  rfl

/-! ## Single instructions -/

theorem Emitter.Sound.params (h : e.Sound) : e.types[paramLocals]? = some .slice ∧
    e.types[paramStack]? = some .slice ∧ e.types[paramFrame]? = some .context := by
  obtain ⟨ts, hts⟩ := h.function.params
  rw [Emitter.types, hts]
  refine ⟨?_, ?_, ?_⟩ <;> rw [Array.getElem?_append_left (by decide)] <;> rfl

theorem append_spec (hr : e.Ready) (t : Ty) (i : Instr)
    (hi : ∀ r, ({ i with result := r } : Instr).Sound e.types) :
    Ends (Emit.build (.append t i)) e E fun v e' =>
      Issues e e' ∧ (t ≠ .void → e'.types[v]? = some t) := by
  refine ends_of_ok (build_append hr.isOpen t i) ⟨⟨_, _, rfl, ?_⟩, fun ht => types_fresh ht _⟩
  intro j hj
  rw [List.mem_singleton.1 hj]
  exact (hi _).grow ⟨_, rfl⟩

/-- Appending an instruction without a result. -/
theorem append_void_spec (hr : e.Ready) (i : Instr)
    (hi : ∀ r, ({ i with result := r } : Instr).Sound e.types) :
    Ends (Emit.build do let _ ← Build.append .void i) e E fun _ e' => Issues e e' := by
  have hbuild : Emit.build (do let _ ← Build.append .void i) e =
      (do let _ ← Emit.build (Build.append .void i)) e := by
    simp only [Emit.build, bind, EStateM.bind]
    cases Build.append .void i e.builder <;> rfl
  rw [Ends, hbuild]
  exact (append_spec hr .void i hi).bind fun _ _ h => h.1

theorem const_spec (hr : e.Ready) (n : Int32) :
    Ends (Emit.const n) e E fun v e' => Issues e e' ∧ e'.types[v]? = some .int :=
  (append_spec hr .int { op := .constInt, constant := n.toInt64 }
    fun _ => ⟨⟨[], rfl, .nil⟩, _, fun _ => rfl⟩).imp fun _ _ h => ⟨h.1, h.2 (by decide)⟩

theorem addInt_spec (hr : e.Ready) {x y : ValueId} (hx : e.types[x]? = some .int)
    (hy : e.types[y]? = some .int) :
    Ends (Emit.build (.addInt x y)) e E fun v e' => Issues e e' ∧ e'.types[v]? = some .int :=
  (append_spec hr .int { op := .addInt, args := [x, y] }
    fun _ => ⟨⟨_, rfl, .cons hx (.cons hy .nil)⟩, _, fun _ => rfl⟩).imp
      fun _ _ h => ⟨h.1, h.2 (by decide)⟩

theorem stackIndex_spec (hr : e.Ready) :
    Ends Emit.stackIndex e E fun v e' => Issues e e' ∧ e'.types[v]? = some .int :=
  (append_spec hr .int { op := .loadField, args := [paramFrame], field := .stackIndex }
    fun _ => ⟨⟨_, rfl, .cons hr.params.2.2 .nil⟩, _, fun _ => rfl⟩).imp
      fun _ _ h => ⟨h.1, h.2 (by decide)⟩

theorem storeIndex_spec (hr : e.Ready) {x : ValueId} (hx : e.types[x]? = some .int) :
    Ends (Emit.build (.storeField paramFrame .stackIndex x)) e E fun _ e' => Issues e e' :=
  append_void_spec hr { op := .storeField, args := [paramFrame, x], field := .stackIndex }
    fun _ => ⟨⟨_, rfl, .cons hr.params.2.2 (.cons hx .nil)⟩, _, fun _ => rfl⟩

theorem loadElem_spec (hr : e.Ready) {area index : ValueId} (ha : e.types[area]? = some .slice)
    (hi : e.types[index]? = some .int) :
    Ends (Emit.build (.loadElem area index)) e E fun v e' =>
      Issues e e' ∧ e'.types[v]? = some .object :=
  (append_spec hr .object { op := .loadElem, args := [area, index] }
    fun _ => ⟨⟨_, rfl, .cons ha (.cons hi .nil)⟩, _, fun _ => rfl⟩).imp
      fun _ _ h => ⟨h.1, h.2 (by decide)⟩

theorem storeElem_spec (hr : e.Ready) {area index x : ValueId}
    (ha : e.types[area]? = some .slice) (hi : e.types[index]? = some .int)
    (hx : e.types[x]? = some .object) :
    Ends (Emit.build (.storeElem area index x)) e E fun _ e' => Issues e e' :=
  append_void_spec hr { op := .storeElem, args := [area, index, x] }
    fun _ => ⟨⟨_, rfl, .cons ha (.cons hi (.cons hx .nil))⟩, _, fun _ => rfl⟩

theorem Routine.length_params (r : Routine) : r.signature.params.length ≤ maxArgs := by
  cases r <;> simp [Routine.signature, maxArgs]

/-- The call of a routine on operands of its signature. -/
theorem callHelper_spec (hr : e.Ready) (name : String) (r : Routine) {args : List ValueId}
    (hargs : Operands e.types args r.signature.params) :
    Ends (Emit.callHelper (.ofRoutine name r) args) e E fun v e' =>
      Issues e e' ∧ (r.signature.result ≠ .void → e'.types[v]? = some r.signature.result) := by
  refine append_spec hr _ { op := .call, args, helper := some (.ofRoutine name r) } fun v => ?_
  refine ⟨⟨_, rfl, hargs⟩, .call v r args, fun block => ?_⟩
  have hlen : ¬ maxArgs < args.length := by
    rw [hargs.length_eq, Nat.not_lt]
    exact Routine.length_params r
  simp only [lowerInstr, Helper.ofRoutine, hlen, if_false]

/-! ## Pending values -/

/-- The entry is an object. -/
def Entry.IsObject (types : Array Ty) (x : Entry) : Prop :=
  x.kind = .object ∧ types[x.value]? = some .object

theorem Entry.IsObject.typed {types : Array Ty} {x : Entry} (h : x.IsObject types) : x.Typed types :=
  .inl h

theorem Entry.isObject_object {types : Array Ty} {v : ValueId} (h : types[v]? = some .object) :
    (Entry.object v).IsObject types := ⟨rfl, h⟩

theorem Entry.typed_int {types : Array Ty} {v : ValueId} (h : types[v]? = some .int) :
    (Entry.int v).Typed types := .inr ⟨rfl, h⟩

theorem Entry.IsObject.grow {types types' : Array Ty} (h : Grows types types') {x : Entry}
    (hx : x.IsObject types) : x.IsObject types' := ⟨hx.1, h.getElem? hx.2⟩

theorem Entry.Typed.isObject_of_owns {types : Array Ty} {x : Entry} (h : x.Typed types)
    (ho : x.owns = true) : x.IsObject types := by
  rcases h with h | h
  · exact h
  · simp [Entry.owns, h.1] at ho

theorem retain_spec (hr : e.Ready) {x : Entry} (hx : x.Typed e.types) :
    Ends (Emit.retain x) e E fun _ e' => Issues e e' := by
  unfold Emit.retain
  by_cases ho : x.owns = true
  · rw [if_pos ho]
    exact (callHelper_spec hr _ (.effect .retain) (.cons (hx.isObject_of_owns ho).2 .nil)).bind
      fun _ _ h => h.1
  · rw [if_neg ho]
    exact Issues.refl e

theorem release_spec (hr : e.Ready) {x : Entry} (hx : x.Typed e.types) :
    Ends (Emit.release x) e E fun _ e' => Issues e e' := by
  unfold Emit.release
  by_cases ho : x.owns = true
  · rw [if_pos ho]
    exact (callHelper_spec hr _ (.effect .release) (.cons (hx.isObject_of_owns ho).2 .nil)).bind
      fun _ _ h => h.1
  · rw [if_neg ho]
    exact Issues.refl e

theorem box_spec (hr : e.Ready) {x : Entry} (hx : x.Typed e.types) :
    Ends (Emit.box x) e E fun y e' => Issues e e' ∧ y.IsObject e'.types := by
  unfold Emit.box
  rcases hx with hx | hx
  · rw [hx.1]
    exact ⟨Issues.refl e, hx⟩
  · rw [hx.1]
    exact (callHelper_spec hr _ .box (.cons hx.2 .nil)).bind fun _ _ h =>
      ⟨h.1, Entry.isObject_object (h.2 (by decide))⟩

theorem pushReal_spec (hr : e.Ready) {v : ValueId} (hv : e.types[v]? = some .object) :
    Ends (Emit.pushReal v) e E fun _ e' => Issues e e' := by
  refine (stackIndex_spec hr).bind fun i e₁ ⟨h₁, hi⟩ => ?_
  have hr₁ := h₁.ready hr
  refine (storeElem_spec hr₁ hr₁.params.2.1 hi (h₁.grows.getElem? hv)).bind fun _ e₂ h₂ => ?_
  have hr₂ := h₂.ready hr₁
  refine (const_spec hr₂ 1).bind fun one e₃ ⟨h₃, hone⟩ => ?_
  have hr₃ := h₃.ready hr₂
  refine (addInt_spec hr₃ ((h₂.trans h₃).grows.getElem? hi) hone).bind fun next e₄ ⟨h₄, hnext⟩ => ?_
  exact (storeIndex_spec (h₄.ready hr₃) hnext).imp fun _ _ h₅ =>
    h₁.trans (h₂.trans (h₃.trans (h₄.trans h₅)))

theorem topIndex_spec (hr : e.Ready) :
    Ends Emit.topIndex e E fun v e' => Issues e e' ∧ e'.types[v]? = some .int := by
  refine (stackIndex_spec hr).bind fun i e₁ ⟨h₁, hi⟩ => ?_
  have hr₁ := h₁.ready hr
  refine (const_spec hr₁ (-1)).bind fun one e₂ ⟨h₂, hone⟩ => ?_
  exact (addInt_spec (h₂.ready hr₁) (h₂.grows.getElem? hi) hone).imp fun _ _ h₃ =>
    ⟨h₁.trans (h₂.trans h₃.1), h₃.2⟩

theorem popReal_spec (hr : e.Ready) :
    Ends Emit.popReal e E fun v e' => Issues e e' ∧ e'.types[v]? = some .object := by
  refine (topIndex_spec hr).bind fun i e₁ ⟨h₁, hi⟩ => ?_
  have hr₁ := h₁.ready hr
  refine (storeIndex_spec hr₁ hi).bind fun _ e₂ h₂ => ?_
  have hr₂ := h₂.ready hr₁
  exact (loadElem_spec hr₂ hr₂.params.2.1 (h₂.grows.getElem? hi)).imp fun _ _ h₃ =>
    ⟨h₁.trans (h₂.trans h₃.1), h₃.2⟩

theorem peekReal_spec (hr : e.Ready) :
    Ends Emit.peekReal e E fun v e' => Issues e e' ∧ e'.types[v]? = some .object := by
  refine (topIndex_spec hr).bind fun i e₁ ⟨h₁, hi⟩ => ?_
  have hr₁ := h₁.ready hr
  exact (loadElem_spec hr₁ hr₁.params.2.1 hi).imp fun _ _ h₂ => ⟨h₁.trans h₂.1, h₂.2⟩

theorem loadLocal_spec (hr : e.Ready) (i : Int) :
    Ends (Emit.loadLocal i) e E fun v e' => Issues e e' ∧ e'.types[v]? = some .object := by
  refine (const_spec hr (.ofInt i)).bind fun n e₁ ⟨h₁, hn⟩ => ?_
  have hr₁ := h₁.ready hr
  exact (loadElem_spec hr₁ hr₁.params.1 hn).imp fun _ _ h₂ => ⟨h₁.trans h₂.1, h₂.2⟩

theorem storeLocal_spec (hr : e.Ready) (i : Int) {v : ValueId} (hv : e.types[v]? = some .object) :
    Ends (Emit.storeLocal i v) e E fun _ e' => Issues e e' := by
  refine (const_spec hr (.ofInt i)).bind fun n e₁ ⟨h₁, hn⟩ => ?_
  have hr₁ := h₁.ready hr
  exact (storeElem_spec hr₁ hr₁.params.1 hn (h₁.grows.getElem? hv)).imp fun _ _ h₂ => h₁.trans h₂

/-- Code was emitted, and more can be. -/
structure Continues (e e' : Emitter) : Prop where
  emits : Emits e e'
  ready : e'.Ready

theorem Issues.continues (h : Issues e e') (hr : e.Ready) : Continues e e' := ⟨h.emits, h.ready hr⟩

theorem Continues.trans (h : Continues e e') (h' : Continues e' e'') : Continues e e'' :=
  ⟨h.emits.trans h'.emits, h'.ready⟩

theorem Continues.grows (h : Continues e e') : Grows e.types e'.types := h.emits.grows

/-- Replacing the pending operands. -/
theorem continues_operands (hr : e.Ready) {xs : List Entry} (hxs : ∀ x ∈ xs, x.Typed e.types) :
    Continues e { e with operands := xs } := by
  have hemits : Emits e { e with operands := xs } :=
    ⟨[], [], by rw [extend_nil], fun _ h => by cases h⟩
  exact ⟨hemits, hemits.ready hr hxs hr.slots rfl⟩

/-- Replacing what is known of the locals. -/
theorem continues_locals (hr : e.Ready) {slots : Array Slot} (hsize : slots.size = e.locals.size)
    (hslots : ∀ s ∈ slots, s.Typed e.types) : Continues e { e with locals := slots } := by
  have hemits : Emits e { e with locals := slots } :=
    ⟨[], [], by rw [extend_nil], fun _ h => by cases h⟩
  exact ⟨hemits, hemits.ready hr hr.operands hslots hsize⟩

theorem push_spec (hr : e.Ready) {x : Entry} (hx : x.Typed e.types) :
    Ends (Emit.push x) e E fun _ e' => Continues e e' := by
  have hnone : ¬ x.isNone = true := by
    rcases hx with hx | hx <;> simp [Entry.isNone, hx.1]
  unfold Emit.push
  rw [if_neg hnone]
  exact continues_operands hr (List.forall_mem_cons.2 ⟨hx, hr.operands⟩)

theorem pop_spec (hr : e.Ready) :
    Ends Emit.pop e E fun x e' => Continues e e' ∧ x.Typed e'.types := by
  unfold Emit.pop
  rw [ends_bind, ends_get]
  cases hops : e.operands with
  | nil =>
    exact (popReal_spec hr).bind fun _ _ h =>
      ⟨h.1.continues hr, (Entry.isObject_object h.2).typed⟩
  | cons x rest =>
    have htyped := hr.operands
    rw [hops] at htyped
    obtain ⟨hx, hrest⟩ := List.forall_mem_cons.1 htyped
    exact ⟨continues_operands hr hrest, hx⟩

theorem peek_spec (hr : e.Ready) :
    Ends Emit.peek e E fun x e' => Continues e e' ∧ x.Typed e'.types := by
  unfold Emit.peek
  rw [ends_bind, ends_get]
  cases hops : e.operands with
  | nil =>
    exact (peekReal_spec hr).bind fun _ _ h =>
      ⟨h.1.continues hr, (Entry.isObject_object h.2).typed⟩
  | cons x rest =>
    have hx := hr.operands x (by rw [hops]; exact List.mem_cons_self)
    exact ⟨(Issues.refl e).continues hr, hx⟩

theorem pushEntries_spec {xs : List Entry} (hr : e.Ready) (hxs : ∀ x ∈ xs, x.Typed e.types) :
    Ends (Emit.pushEntries xs) e E fun _ e' => Issues e e' := by
  induction xs generalizing e with
  | nil => exact Issues.refl e
  | cons x xs ih =>
    obtain ⟨hx, hxs⟩ := List.forall_mem_cons.1 hxs
    refine (box_spec hr hx).bind fun y e₁ ⟨h₁, hy⟩ => ?_
    have hr₁ := h₁.ready hr
    refine (pushReal_spec hr₁ hy.2).bind fun _ e₂ h₂ => ?_
    have hgrows := (h₁.trans h₂).grows
    exact (ih (h₂.ready hr₁) fun z hz => (hxs z hz).grow hgrows).imp fun _ _ h₃ =>
      h₁.trans (h₂.trans h₃)

theorem sync_spec (hr : e.Ready) :
    Ends Emit.sync e E fun _ e' => Continues e e' ∧ e'.operands = [] := by
  unfold Emit.sync
  rw [ends_bind, ends_get]
  refine (pushEntries_spec hr fun x hx => hr.operands x (List.mem_reverse.1 hx)).bind
    fun _ e₁ h₁ => ?_
  have hops := continues_operands (h₁.ready hr) (List.forall_mem_nil fun x : Entry => x.Typed e₁.types)
  exact ⟨(h₁.continues hr).trans hops, rfl⟩

/-! ## Locals -/

/-- The slot of a local that the method has. -/
theorem slot_spec {i : Nat} (hi : i < e.locals.size) :
    Ends (Emit.slot i) e E fun s e' => e' = e ∧ e.locals[i]? = some s := by
  have hget : e.locals[i]? = some e.locals[i] := Array.getElem?_eq_getElem hi
  unfold Emit.slot
  rw [ends_bind, ends_get]
  simp only [Int.not_lt.2 (Int.natCast_nonneg i), if_false, Int.toNat_natCast, hget, ends_pure,
    and_self]

theorem forall_mem_setIfInBounds {α : Type} {p : α → Prop} {xs : Array α} (h : ∀ x ∈ xs, p x)
    (i : Nat) {y : α} (hy : p y) : ∀ x ∈ xs.setIfInBounds i y, p x := by
  intro x hx
  rcases Array.mem_or_eq_of_mem_setIfInBounds hx with hx | rfl
  · exact h x hx
  · exact hy

theorem setSlot_spec (hr : e.Ready) (i : Nat) {s : Slot} (hs : s.Typed e.types) :
    Ends (Emit.setSlot i s) e E fun _ e' =>
      Continues e e' ∧ e' = { e with locals := e.locals.setIfInBounds i s } := by
  refine ⟨?_, rfl⟩
  exact continues_locals hr (Array.size_setIfInBounds ..) (forall_mem_setIfInBounds hr.slots _ hs)

theorem getLocal_spec (hr : e.Ready) {i : Nat} (hi : i < e.locals.size) :
    Ends (Emit.getLocal i) e E fun x e' => Continues e e' ∧ x.IsObject e'.types := by
  refine (slot_spec hi).bind fun s e₁ ⟨he, hs⟩ => ?_
  subst e₁
  have htyped := hr.slots s (Array.mem_of_getElem? hs)
  by_cases hnone : s.entry.isNone = true
  · simp only [hnone, if_true]
    refine (loadLocal_spec hr i).bind fun v e₁ ⟨h₁, hv⟩ => ?_
    have hr₁ := h₁.ready hr
    have hx := Entry.isObject_object hv
    refine (setSlot_spec hr₁ i (s := ⟨.object v, false⟩) (.inr hx)).bind fun _ e₂ ⟨h₂, _⟩ => ?_
    have hx₂ := hx.grow h₂.grows
    exact (retain_spec h₂.ready hx₂.typed).bind fun _ _ h₃ =>
      ⟨(h₁.continues hr).trans (h₂.trans (h₃.continues h₂.ready)), hx₂.grow h₃.grows⟩
  · simp only [hnone]
    have hx : s.entry.IsObject e.types := by
      rcases htyped with rfl | hx
      · exact absurd rfl hnone
      · exact hx
    exact (retain_spec hr hx.typed).bind fun _ _ h₁ =>
      ⟨h₁.continues hr, hx.grow h₁.grows⟩

theorem setLocal_spec (hr : e.Ready) {i : Nat} (hi : i < e.locals.size) {x : Entry}
    (hx : x.IsObject e.types) :
    Ends (Emit.setLocal i x) e E fun _ e' => Continues e e' := by
  unfold Emit.setLocal
  simp only [hx.1, ne_eq, not_true, if_false]
  refine (slot_spec hi).bind fun s e₁ ⟨he, hs⟩ => ?_
  subst e₁
  have htyped := hr.slots s (Array.mem_of_getElem? hs)
  by_cases hdirty : s.dirty = true
  · rw [if_pos hdirty]
    have hentry : s.entry.Typed e.types := by
      rcases htyped with rfl | hs
      · cases hdirty
      · exact .inl hs
    refine (release_spec hr hentry).bind fun _ e₁ h₁ => ?_
    exact (setSlot_spec (h₁.ready hr) i (s := ⟨x, true⟩) (.inr (hx.grow h₁.grows))).imp fun _ _ h₂ =>
      (h₁.continues hr).trans h₂.1
  · rw [if_neg hdirty]
    by_cases hsame : s.entry = x
    · rw [if_pos hsame]
      exact (release_spec hr hx.typed).imp fun _ _ h₁ => h₁.continues hr
    · rw [if_neg hsame]
      exact (setSlot_spec hr i (s := ⟨x, true⟩) (.inr hx)).imp fun _ _ h => h.1

/-- All locals are in their places. -/
def Emitter.Clean (e : Emitter) : Prop := ∀ s ∈ e.locals, s.dirty = false

/-- Nothing is pending. -/
structure Emitter.Synced (e : Emitter) : Prop where
  operands : e.operands = []
  clean : e.Clean

theorem Continues.size_locals (h : Continues e e') (hr : e.Ready) :
    e'.locals.size = e.locals.size := by
  obtain ⟨ts, is, heq, -⟩ := h.emits
  rw [h.ready.numLocals, hr.numLocals, heq]
  rfl

/-- Moving one dirty local to its place, and going on. -/
theorem storeDirty_bind (hr : e.Ready) {i : Nat} {x : Entry} (hx : x.IsObject e.types)
    {k : Emit Unit} {Q : Unit → Emitter → Prop}
    (hk : ∀ e', Continues e e' → e'.operands = e.operands →
      e'.locals = e.locals.setIfInBounds i ⟨x, false⟩ → Ends k e' E Q) :
    Ends (do
      let old ← Emit.loadLocal i
      Emit.storeLocal i x.value
      let _ ← Emit.callHelper Registry.releaseBound [old]
      Emit.setSlot i ⟨x, false⟩
      k) e E Q := by
  refine (loadLocal_spec hr i).bind fun old e₁ ⟨h₁, hold⟩ => ?_
  have hr₁ := h₁.ready hr
  refine (storeLocal_spec hr₁ i (hx.grow h₁.grows).2).bind fun _ e₂ h₂ => ?_
  have hr₂ := h₂.ready hr₁
  refine (callHelper_spec hr₂ _ (.effect .releaseBound)
    (.cons (h₂.grows.getElem? hold) .nil)).bind fun _ e₃ ⟨h₃, _⟩ => ?_
  have h₁₃ := h₁.trans (h₂.trans h₃)
  refine (setSlot_spec (h₃.ready hr₂) i (s := ⟨x, false⟩) (.inr (hx.grow h₁₃.grows))).bind
    fun _ e₄ ⟨h₄, heq⟩ => hk e₄ ((h₁₃.continues hr).trans h₄) ?_ ?_
  · rw [heq, ← h₁₃.operands]
  · rw [heq, ← h₁₃.locals]

theorem syncLocalsFrom_spec (hr : e.Ready) (n i : Nat) (hi : i + n = e.locals.size)
    (hclean : ∀ j < i, ∀ s, e.locals[j]? = some s → s.dirty = false) :
    Ends (Emit.syncLocalsFrom n i) e E fun _ e' =>
      Continues e e' ∧ e'.operands = e.operands ∧ e'.Clean := by
  induction n generalizing e i with
  | zero =>
    refine ⟨(Issues.refl e).continues hr, rfl, fun s hs => ?_⟩
    obtain ⟨j, hj, rfl⟩ := Array.mem_iff_getElem.1 hs
    exact hclean j (by omega) _ (Array.getElem?_eq_getElem hj)
  | succ n ih =>
    refine (slot_spec (by omega)).bind fun s e₁ ⟨he, hs⟩ => ?_
    subst e₁
    by_cases hdirty : s.dirty = true
    · have hentry : s.entry.IsObject e.types := by
        rcases hr.slots s (Array.mem_of_getElem? hs) with rfl | hs
        · cases hdirty
        · exact hs
      simp only [hdirty, if_true, hentry.1, ne_eq, not_true, if_false]
      refine storeDirty_bind hr hentry fun e₁ h₁ hops hlocals => ?_
      refine (ih h₁.ready (i + 1) (by rw [h₁.size_locals hr]; omega) ?_).imp fun _ e₂ ⟨h₂, hops₂, hc⟩ =>
        ⟨h₁.trans h₂, hops₂.trans hops, hc⟩
      intro j hj t ht
      rw [hlocals, Array.getElem?_setIfInBounds] at ht
      split at ht
      · split at ht
        · rw [← Option.some.inj ht]
        · cases ht
      · exact hclean j (by omega) t ht
    · simp only [hdirty]
      refine ih hr (i + 1) (by omega) ?_
      intro j hj t ht
      by_cases hj' : j = i
      · subst j
        rw [hs] at ht
        rw [← Option.some.inj ht]
        exact Bool.eq_false_iff.2 hdirty
      · exact hclean j (by omega) t ht

theorem syncLocals_spec (hr : e.Ready) :
    Ends Emit.syncLocals e E fun _ e' => Continues e e' ∧ e'.operands = e.operands ∧ e'.Clean := by
  unfold Emit.syncLocals
  rw [ends_bind, ends_get]
  exact syncLocalsFrom_spec hr _ 0 (Nat.zero_add _) (fun j hj => absurd hj (Nat.not_lt_zero j))

theorem syncAll_spec (hr : e.Ready) :
    Ends Emit.syncAll e E fun _ e' => Continues e e' ∧ e'.Synced := by
  refine (sync_spec hr).bind fun _ e₁ ⟨h₁, hops⟩ => ?_
  exact (syncLocals_spec h₁.ready).imp fun _ _ ⟨h₂, hops₂, hc⟩ =>
    ⟨h₁.trans h₂, hops₂.trans hops, hc⟩

theorem invalidateLocal_spec (hr : e.Ready) (hsync : e.Synced) {i : Nat} (hi : i < e.locals.size) :
    Ends (Emit.invalidateLocal i) e E fun _ e' => Continues e e' ∧ e'.Synced := by
  refine (slot_spec hi).bind fun s e₁ ⟨he, hs⟩ => ?_
  subst e₁
  simp only [hsync.clean s (Array.mem_of_getElem? hs), Bool.false_eq_true, if_false]
  refine (setSlot_spec hr i (s := {}) (.inl rfl)).imp fun _ e₁ ⟨h₁, heq⟩ => ⟨h₁, ?_⟩
  rw [heq]
  exact ⟨hsync.operands, forall_mem_setIfInBounds hsync.clean i rfl⟩

theorem resetLocals_spec (hr : e.Ready) (hsync : e.Synced) :
    Ends Emit.resetLocals e E fun _ e' => Continues e e' ∧ e'.Synced := by
  unfold Emit.resetLocals
  rw [ends_bind, ends_get]
  have hclean : e.locals.findIdx? Slot.dirty = none := by
    rw [Array.findIdx?_eq_none_iff]
    exact fun s hs => hsync.clean s hs
  simp only [hclean, ends_modify]
  have hmem {s : Slot} (hs : s ∈ Array.replicate e.locals.size ({} : Slot)) : s = {} :=
    (Array.mem_replicate.1 hs).2
  refine ⟨continues_locals hr Array.size_replicate fun s hs => .inl (hmem hs), hsync.operands, ?_⟩
  intro s hs
  rw [hmem hs]

end MethodJit.Compiler
