import MethodJit.Proofs.Totality

/-!
# Values are assigned before they are used

In the code of a method every operand is a parameter or was assigned by an earlier instruction of the same
block, and every other value is assigned by exactly one instruction. Pending values are subject to the
same rule, which is why none is pending and no local is known when a block is left.
-/

namespace MethodJit.IR

/-- The value is a parameter or the result of one of the instructions. -/
def Available (is : List Instr) (v : ValueId) : Prop :=
  v ∈ [paramLocals, paramStack, paramFrame] ∨ v ≠ 0 ∧ ∃ i ∈ is, i.result = v

/-- The operands of a terminator. -/
def Term.uses : Term → List ValueId
  | .condBr c _ _ => [c]
  | .ret v => [v]
  | _ => []

/-- Every instruction of the block uses what is available before it, and so does the terminator. -/
structure Block.Scoped (b : Block) : Prop where
  instrs : ∀ before i after, b.instrs.toList = before ++ i :: after → ∀ v ∈ i.args, Available before v
  term : ∀ v ∈ b.term.uses, Available b.instrs.toList v

/-- The results of all instructions, zero for those that have none. -/
def Function.results (f : Function) : List ValueId :=
  f.blocks.toList.flatMap fun b => b.instrs.toList.map Instr.result

/-- Every value but the parameters is assigned once, and nothing else is assigned. -/
def Function.Assigned (f : Function) : Prop :=
  ∀ v, v ≠ 0 → f.results.count v = if 3 < v ∧ v < f.numValues then 1 else 0

theorem Available.mono {is is' : List Instr} {v : ValueId} (h : Available is v)
    (hsub : ∀ i ∈ is, i ∈ is') : Available is' v :=
  h.imp_right fun ⟨h0, i, hi, hv⟩ => ⟨h0, i, hsub i hi, hv⟩

theorem Block.scoped_empty (name : String) : Block.Scoped { name } where
  instrs before i after h := by simp at h
  term v h := by cases h

/-- An instruction on available operands can be appended. -/
theorem Block.Scoped.append {b : Block} (h : b.Scoped) {i : Instr}
    (hi : ∀ v ∈ i.args, Available b.instrs.toList v) : (Build.appendTo i b).Scoped where
  instrs before j after heq := by
    have heq' : b.instrs.toList ++ [i] = before ++ j :: after := by
      simpa [Build.appendTo] using heq
    rcases List.eq_nil_or_concat after with rfl | ⟨after', k, rfl⟩
    · obtain ⟨rfl, hj⟩ := List.append_inj' heq' rfl
      obtain rfl : i = j := List.head_eq_of_cons_eq hj
      exact hi
    · have heq'' : b.instrs.toList ++ [i] = (before ++ j :: after') ++ [k] := by simpa using heq'
      obtain ⟨hinit, -⟩ := List.append_inj' heq'' rfl
      exact h.instrs before j after' hinit
  term v hv := by
    refine (h.term v hv).mono fun j hj => ?_
    simp [Build.appendTo, hj]

theorem Block.Scoped.terminate {b : Block} (h : b.Scoped) {t : Term}
    (ht : ∀ v ∈ t.uses, Available b.instrs.toList v) : (Build.terminateWith t b).Scoped where
  instrs := h.instrs
  term := by
    unfold Build.terminateWith
    dsimp only
    split
    · exact ht
    · exact h.term

theorem Function.block?_modifyBlock (f : Function) (id : BlockId) (g : Block → Block) :
    (f.modifyBlock id g).block? id = (f.block? id).map g := by
  unfold Function.block? Function.modifyBlock
  split <;> simp [Array.getElem?_modify]

/-- What holds of all blocks still does if one is changed so that it holds of it. -/
theorem Function.forall_modifyBlock {P : Block → Prop} {f : Function} {id : BlockId} {b : Block}
    {g : Block → Block} (hb : f.block? id = some b) (h : ∀ b ∈ f.blocks, P b) (hg : P (g b)) :
    ∀ b ∈ (f.modifyBlock id g).blocks, P b := by
  intro b' hb'
  obtain ⟨-, hb⟩ := Function.block?_eq_some.1 hb
  obtain ⟨j, hj⟩ := Array.mem_iff_getElem?.1 hb'
  rw [Function.modifyBlock, Array.getElem?_modify] at hj
  split at hj
  · subst j
    rw [hb] at hj
    cases hj
    exact hg
  · exact h b' (Array.mem_of_getElem? hj)

/-- What a change of one block adds to a count over all blocks. -/
theorem count_flatMap_modify {bs : List Block} {k n : Nat} {b : Block} {g : Block → Block}
    {F : Block → List ValueId} {v : ValueId} (hb : bs[k]? = some b)
    (h : (F (g b)).count v = (F b).count v + n) :
    ((bs.modify k g).flatMap F).count v = (bs.flatMap F).count v + n := by
  induction bs generalizing k with
  | nil => cases hb
  | cons b' bs ih =>
    cases k with
    | zero =>
      obtain rfl : b' = b := by simpa using hb
      simp only [List.modify_zero_cons, List.flatMap_cons, List.count_append, h]
      omega
    | succ k =>
      have := ih (k := k) (by simpa using hb)
      simp only [List.modify_succ_cons, List.flatMap_cons, List.count_append, this]
      omega

theorem count_results_append {f : Function} {id : BlockId} {b : Block} (hb : f.block? id = some b)
    (i : Instr) (v : ValueId) : (f.modifyBlock id (Build.appendTo i)).results.count v =
      f.results.count v + if i.result = v then 1 else 0 := by
  obtain ⟨-, hb⟩ := Function.block?_eq_some.1 hb
  simp only [Function.results, Function.modifyBlock, Array.toList_modify]
  refine count_flatMap_modify (b := b) (by simpa using hb) ?_
  simp [Build.appendTo, List.count_append, List.count_singleton]

theorem results_terminate {f : Function} {id : BlockId} {b : Block} (hb : f.block? id = some b)
    (t : Term) (v : ValueId) :
    (f.modifyBlock id (Build.terminateWith t)).results.count v = f.results.count v := by
  obtain ⟨-, hb⟩ := Function.block?_eq_some.1 hb
  simp only [Function.results, Function.modifyBlock, Array.toList_modify]
  exact count_flatMap_modify (n := 0) (b := b) (by simpa using hb) rfl

end MethodJit.IR

namespace MethodJit.Compiler

open IR

variable {α β : Type} {e e' e'' : Emitter} {v : ValueId} {pos : Nat}

/-! ## Emitters -/

/-- The instructions of the block at the insertion point. -/
def Emitter.current (e : Emitter) : List Instr :=
  ((e.function.block? e.builder.point).map fun b => b.instrs.toList).getD []

/-- The value can be used in the code that follows. -/
def Emitter.Holds (e : Emitter) (v : ValueId) : Prop := Available e.current v

/-- Whether the block at the insertion point has a terminator. -/
def Emitter.ended (e : Emitter) : Bool :=
  ((e.function.block? e.builder.point).map fun b => decide (0 < b.terms)).getD false

structure Emitter.Scoped (e : Emitter) : Prop where
  blocks : ∀ b ∈ e.function.blocks, b.Scoped
  assigned : e.function.Assigned
  params : 4 ≤ e.function.numValues
  operands : ∀ x ∈ e.operands, e.Holds x.value
  slots : ∀ s ∈ e.locals, s.entry.isNone = false → e.Holds s.entry.value

/-- Code was emitted into the same block. -/
structure Later (e e' : Emitter) : Prop where
  inScope : e'.Scoped
  holds : ∀ v, e.Holds v → e'.Holds v
  ended : e'.ended = e.ended

/-- Code was emitted into the same block, and the pending operands are the same. -/
structure Quiet (e e' : Emitter) : Prop extends Later e e' where
  operands : e'.operands = e.operands

theorem Emitter.Scoped.refl (h : e.Scoped) : Quiet e e := ⟨⟨h, fun _ h => h, rfl⟩, rfl⟩

theorem Later.trans (h : Later e e') (h' : Later e' e'') : Later e e'' :=
  ⟨h'.inScope, fun v hv => h'.holds v (h.holds v hv), h'.ended.trans h.ended⟩

theorem Quiet.trans (h : Quiet e e') (h' : Quiet e' e'') : Quiet e e'' :=
  ⟨h.toLater.trans h'.toLater, h'.operands.trans h.operands⟩

theorem Emitter.holds_param (hv : v ∈ [paramLocals, paramStack, paramFrame]) : e.Holds v := .inl hv

/-- Only what is pending has changed. -/
theorem later_pending (hs : e.Scoped) (operands : List Entry) (locals : Array Slot)
    (hops : ∀ x ∈ operands, e.Holds x.value)
    (hslots : ∀ s ∈ locals, s.entry.isNone = false → e.Holds s.entry.value) :
    Later e { e with operands, locals } :=
  ⟨⟨hs.blocks, hs.assigned, hs.params, hops, hslots⟩, fun _ h => h, rfl⟩

/-- The function after an instruction was appended at the insertion point. -/
def Emitter.appended (e : Emitter) (t : Ty) (i : Instr) : Emitter :=
  let f : Function := { e.function with types := e.function.types ++ (resultTypes t).toArray }
  { e with builder := ⟨f.modifyBlock e.builder.point (Build.appendTo i), e.builder.point⟩ }

theorem build_append_yields (t : Ty) (i : Instr) :
    Yields (Emit.build (.append t i)) e fun v e' =>
      v = e.fresh t ∧ e' = e.appended t { i with result := v } ∧
        ∃ b, e.function.block? e.builder.point = some b := by
  obtain ⟨⟨f, point⟩, method, blocks, offset, operands, locals, log⟩ := e
  cases hb : f.block? point with
  | none =>
    have hblock (ts : Array Ty) : ({ f with types := ts } : Function).block? point = none := hb
    simp only [Yields, Ends, Emit.build, Build.append, bind, EStateM.bind, newValue_eq,
      Build.modifyPoint, hblock]
  | some b =>
    have hblock (ts : Array Ty) : ({ f with types := ts } : Function).block? point = some b := hb
    simp only [Yields, Ends, Emit.build, Build.append, bind, EStateM.bind, newValue_eq,
      modifyPoint_eq (hblock _)]
    exact ⟨rfl, rfl, b, hb⟩

theorem block?_appended {b : Block} (hb : e.function.block? e.builder.point = some b) (t : Ty)
    (i : Instr) : (e.appended t i).function.block? (e.appended t i).builder.point =
      some (Build.appendTo i b) :=
  (Function.block?_modifyBlock { e.function with
    types := e.function.types ++ (resultTypes t).toArray } _ _).trans (congrArg _ hb)

theorem current_appended {b : Block} (hb : e.function.block? e.builder.point = some b) (t : Ty)
    (i : Instr) : (e.appended t i).current = e.current ++ [i] := by
  rw [Emitter.current, Emitter.current, block?_appended hb, hb]
  simp [Build.appendTo]

theorem ended_appended {b : Block} (hb : e.function.block? e.builder.point = some b) (t : Ty)
    (i : Instr) : (e.appended t i).ended = e.ended := by
  rw [Emitter.ended, Emitter.ended, block?_appended hb, hb]
  rfl

theorem assigned_appended {b : Block} (hb : e.function.block? e.builder.point = some b)
    (h : e.function.Assigned) (hp : 4 ≤ e.function.numValues) (t : Ty) (i : Instr)
    (hi : i.result = e.fresh t) : (e.appended t i).function.Assigned := by
  intro v hv
  have hcount := count_results_append (f := { e.function with
    types := e.function.types ++ (resultTypes t).toArray }) hb i v
  have hold := h v hv
  have hsize : (e.appended t i).function.numValues = e.function.numValues + (resultTypes t).length := by
    simp [Emitter.appended, Emitter.function, Function.modifyBlock, Function.numValues]
  rw [hsize]
  refine hcount.trans ?_
  rw [hi]
  change e.function.results.count v + _ = _
  rw [hold]
  have hfresh : e.fresh t = if t = .void then 0 else e.function.numValues := rfl
  rw [hfresh, resultTypes]
  by_cases ht : t = .void
  · simp [ht, hv.symm]
  · simp only [ht, if_false, List.length_singleton]
    by_cases hv' : e.function.numValues = v
    · subst hv'
      have hlt : 3 < e.function.numValues := hp
      simp [hlt]
    · have hlt : v < e.function.numValues + 1 ↔ v < e.function.numValues := by
        rw [Nat.lt_succ_iff_lt_or_eq, or_iff_left (Ne.symm hv')]
      simp [hv', hlt]

/-- Appending an instruction on values that can be used. -/
theorem append_quiet (hs : e.Scoped) (t : Ty) (i : Instr) (hi : ∀ v ∈ i.args, e.Holds v) :
    Yields (Emit.build (.append t i)) e fun v e' => Quiet e e' ∧ (t ≠ .void → e'.Holds v) := by
  refine (build_append_yields t i).imp ?_
  rintro v e' ⟨hv, rfl, b, hb⟩
  have hcurrent := current_appended hb t { i with result := v }
  have hholds : ∀ u, e.Holds u → (e.appended t { i with result := v }).Holds u := by
    intro u hu
    refine Available.mono hu fun j hj => ?_
    rw [hcurrent]
    exact List.mem_append_left _ hj
  have hblock : e.current = b.instrs.toList := by simp [Emitter.current, hb]
  refine ⟨⟨⟨⟨?_, ?_, ?_, ?_, ?_⟩, hholds, ended_appended hb _ _⟩, rfl⟩, fun ht => .inr ⟨?_, ?_⟩⟩
  · refine Function.forall_modifyBlock (b := b) hb hs.blocks ?_
    obtain ⟨-, hmem⟩ := Function.block?_eq_some.1 hb
    refine (hs.blocks b (Array.mem_of_getElem? hmem)).append fun u hu => ?_
    rw [← hblock]
    exact hi u hu
  · exact assigned_appended hb hs.assigned hs.params t _ hv
  · refine Nat.le_trans hs.params ?_
    simp [Emitter.appended, Emitter.function, Function.modifyBlock, Function.numValues]
  · exact fun x hx => hholds _ (hs.operands x hx)
  · exact fun s hs' hne => hholds _ (hs.slots s hs' hne)
  · have hp : 4 ≤ e.types.size := hs.params
    rw [hv, Emitter.fresh, if_neg ht]
    exact Nat.ne_of_gt (Nat.lt_of_lt_of_le (by decide) hp)
  · rw [hcurrent]
    exact ⟨_, List.mem_append_right _ (List.mem_singleton.2 rfl), rfl⟩

/-- Appending an instruction without a result. -/
theorem append_void_quiet (hs : e.Scoped) (i : Instr) (hi : ∀ v ∈ i.args, e.Holds v) :
    Yields (Emit.build do let _ ← Build.append .void i) e fun _ e' => Quiet e e' := by
  have hbuild : Emit.build (do let _ ← Build.append .void i) e =
      (do let _ ← Emit.build (Build.append .void i)) e := by
    simp only [Emit.build, bind, EStateM.bind]
    cases Build.append .void i e.builder <;> rfl
  rw [Yields, Ends, hbuild]
  exact (append_quiet hs .void i hi).bind fun _ _ h => h.1

/-! ## Values and the real stack -/

theorem const_quiet (hs : e.Scoped) (n : Int32) :
    Yields (Emit.const n) e fun v e' => Quiet e e' ∧ e'.Holds v :=
  (append_quiet hs .int { op := .constInt, constant := n.toInt64 } nofun).imp
    fun _ _ h => ⟨h.1, h.2 nofun⟩

theorem addInt_quiet (hs : e.Scoped) {x y : ValueId} (hx : e.Holds x) (hy : e.Holds y) :
    Yields (Emit.build (.addInt x y)) e fun v e' => Quiet e e' ∧ e'.Holds v :=
  (append_quiet hs .int { op := .addInt, args := [x, y] } (by simp [hx, hy])).imp
    fun _ _ h => ⟨h.1, h.2 nofun⟩

theorem stackIndex_quiet (hs : e.Scoped) :
    Yields Emit.stackIndex e fun v e' => Quiet e e' ∧ e'.Holds v :=
  (append_quiet hs .int { op := .loadField, args := [paramFrame], field := .stackIndex }
    (by simp [Emitter.holds_param])).imp fun _ _ h => ⟨h.1, h.2 nofun⟩

theorem storeIndex_quiet (hs : e.Scoped) {x : ValueId} (hx : e.Holds x) :
    Yields (Emit.build (.storeField paramFrame .stackIndex x)) e fun _ e' => Quiet e e' :=
  append_void_quiet hs _ (by simp [Emitter.holds_param, hx])

theorem loadElem_quiet (hs : e.Scoped) {area index : ValueId} (ha : e.Holds area)
    (hi : e.Holds index) :
    Yields (Emit.build (.loadElem area index)) e fun v e' => Quiet e e' ∧ e'.Holds v :=
  (append_quiet hs .object { op := .loadElem, args := [area, index] } (by simp [ha, hi])).imp
    fun _ _ h => ⟨h.1, h.2 nofun⟩

theorem storeElem_quiet (hs : e.Scoped) {area index x : ValueId} (ha : e.Holds area)
    (hi : e.Holds index) (hx : e.Holds x) :
    Yields (Emit.build (.storeElem area index x)) e fun _ e' => Quiet e e' :=
  append_void_quiet hs _ (by simp [ha, hi, hx])

theorem callHelper_quiet (hs : e.Scoped) (h : Helper) {args : List ValueId}
    (hargs : ∀ v ∈ args, e.Holds v) :
    Yields (Emit.callHelper h args) e fun v e' =>
      Quiet e e' ∧ (h.signature.result ≠ .void → e'.Holds v) :=
  append_quiet hs _ _ hargs

theorem retain_quiet (hs : e.Scoped) {x : Entry} (hx : x.owns = true → e.Holds x.value) :
    Yields (Emit.retain x) e fun _ e' => Quiet e e' := by
  unfold Emit.retain
  split
  · rename_i ho
    exact (callHelper_quiet hs _ (by simpa using hx ho)).bind fun _ _ h => h.1
  · exact hs.refl

theorem release_quiet (hs : e.Scoped) {x : Entry} (hx : x.owns = true → e.Holds x.value) :
    Yields (Emit.release x) e fun _ e' => Quiet e e' := by
  unfold Emit.release
  split
  · rename_i ho
    exact (callHelper_quiet hs _ (by simpa using hx ho)).bind fun _ _ h => h.1
  · exact hs.refl

theorem box_quiet (hs : e.Scoped) {x : Entry} (hx : e.Holds x.value) :
    Yields (Emit.box x) e fun y e' => Quiet e e' ∧ e'.Holds y.value := by
  unfold Emit.box
  split
  · exact ⟨hs.refl, hx⟩
  · exact (callHelper_quiet hs _ (by simpa using hx)).bind fun _ _ h => ⟨h.1, h.2 nofun⟩
  · trivial

theorem pushReal_quiet (hs : e.Scoped) (hv : e.Holds v) :
    Yields (Emit.pushReal v) e fun _ e' => Quiet e e' := by
  refine (stackIndex_quiet hs).bind fun i e₁ ⟨q₁, hi⟩ => ?_
  refine (storeElem_quiet q₁.inScope (Emitter.holds_param (by simp)) hi (q₁.holds v hv)).bind
    fun _ e₂ q₂ => ?_
  refine (const_quiet q₂.inScope 1).bind fun one e₃ ⟨q₃, hone⟩ => ?_
  refine (addInt_quiet q₃.inScope (q₃.holds i (q₂.holds i hi)) hone).bind fun next e₄ ⟨q₄, hn⟩ => ?_
  exact (storeIndex_quiet q₄.inScope hn).imp fun _ _ q₅ => (q₁.trans q₂).trans ((q₃.trans q₄).trans q₅)

theorem topIndex_quiet (hs : e.Scoped) :
    Yields Emit.topIndex e fun v e' => Quiet e e' ∧ e'.Holds v := by
  refine (stackIndex_quiet hs).bind fun i e₁ ⟨q₁, hi⟩ => ?_
  refine (const_quiet q₁.inScope (-1)).bind fun one e₂ ⟨q₂, hone⟩ => ?_
  exact (addInt_quiet q₂.inScope (q₂.holds i hi) hone).imp fun _ _ h => ⟨(q₁.trans q₂).trans h.1, h.2⟩

theorem popReal_quiet (hs : e.Scoped) :
    Yields Emit.popReal e fun v e' => Quiet e e' ∧ e'.Holds v := by
  refine (topIndex_quiet hs).bind fun i e₁ ⟨q₁, hi⟩ => ?_
  refine (storeIndex_quiet q₁.inScope hi).bind fun _ e₂ q₂ => ?_
  exact (loadElem_quiet q₂.inScope (Emitter.holds_param (by simp)) (q₂.holds i hi)).imp
    fun _ _ h => ⟨(q₁.trans q₂).trans h.1, h.2⟩

theorem peekReal_quiet (hs : e.Scoped) :
    Yields Emit.peekReal e fun v e' => Quiet e e' ∧ e'.Holds v := by
  refine (topIndex_quiet hs).bind fun i e₁ ⟨q₁, hi⟩ => ?_
  exact (loadElem_quiet q₁.inScope (Emitter.holds_param (by simp)) hi).imp
    fun _ _ h => ⟨q₁.trans h.1, h.2⟩

theorem loadLocal_quiet (hs : e.Scoped) (i : Int) :
    Yields (Emit.loadLocal i) e fun v e' => Quiet e e' ∧ e'.Holds v := by
  refine (const_quiet hs _).bind fun n e₁ ⟨q₁, hn⟩ => ?_
  exact (loadElem_quiet q₁.inScope (Emitter.holds_param (by simp)) hn).imp
    fun _ _ h => ⟨q₁.trans h.1, h.2⟩

theorem storeLocal_quiet (hs : e.Scoped) (i : Int) (hv : e.Holds v) :
    Yields (Emit.storeLocal i v) e fun _ e' => Quiet e e' := by
  refine (const_quiet hs _).bind fun n e₁ ⟨q₁, hn⟩ => ?_
  exact (storeElem_quiet q₁.inScope (Emitter.holds_param (by simp)) hn (q₁.holds v hv)).imp
    fun _ _ q₂ => q₁.trans q₂

/-! ## Pending values -/

theorem push_later (hs : e.Scoped) {x : Entry} (hx : e.Holds x.value) :
    Yields (Emit.push x) e fun _ e' => Later e e' := by
  unfold Emit.push
  split
  · trivial
  · exact later_pending hs _ _ (by simpa [hx] using hs.operands) hs.slots

theorem pop_later (hs : e.Scoped) : Yields Emit.pop e fun x e' => Later e e' ∧ e'.Holds x.value := by
  unfold Emit.pop
  rw [Yields, ends_bind, ends_get]
  cases hops : e.operands with
  | nil => exact (popReal_quiet hs).bind fun _ _ h => ⟨h.1.toLater, h.2⟩
  | cons x rest =>
    have hmem := hs.operands
    rw [hops] at hmem
    exact ⟨later_pending hs _ _ (fun y hy => hmem y (List.mem_cons_of_mem _ hy)) hs.slots,
      hmem x List.mem_cons_self⟩

theorem peek_quiet (hs : e.Scoped) : Yields Emit.peek e fun x e' => Quiet e e' ∧ e'.Holds x.value := by
  unfold Emit.peek
  rw [Yields, ends_bind, ends_get]
  cases hops : e.operands with
  | nil => exact (peekReal_quiet hs).bind fun _ _ h => h
  | cons x rest => exact ⟨hs.refl, hs.operands x (by simp [hops])⟩

theorem pushEntries_quiet (es : List Entry) (hs : e.Scoped) (hes : ∀ x ∈ es, e.Holds x.value) :
    Yields (Emit.pushEntries es) e fun _ e' => Quiet e e' := by
  induction es generalizing e with
  | nil => exact hs.refl
  | cons x es ih =>
    refine (box_quiet hs (hes x List.mem_cons_self)).bind fun y e₁ ⟨q₁, hy⟩ => ?_
    refine (pushReal_quiet q₁.inScope hy).bind fun _ e₂ q₂ => ?_
    refine (ih q₂.inScope fun z hz => ?_).imp fun _ _ q₃ => (q₁.trans q₂).trans q₃
    exact q₂.holds _ (q₁.holds _ (hes z (List.mem_cons_of_mem _ hz)))

theorem sync_later (hs : e.Scoped) : Yields Emit.sync e fun _ e' => Later e e' ∧ e'.operands = [] := by
  unfold Emit.sync
  rw [Yields, ends_bind, ends_get]
  refine (pushEntries_quiet _ hs fun x hx => hs.operands x (List.mem_reverse.1 hx)).bind
    fun _ e₁ q₁ => ?_
  exact ⟨q₁.toLater.trans (later_pending q₁.inScope [] _ nofun q₁.inScope.slots), rfl⟩

theorem slot_yields (i : Int) : Yields (Emit.slot i) e fun s e' => e' = e ∧ s ∈ e.locals := by
  unfold Emit.slot
  rw [Yields, ends_bind, ends_get]
  dsimp only
  split
  · rename_i s hs
    split at hs
    · cases hs
    · exact ⟨rfl, Array.mem_of_getElem? hs⟩
  · trivial

theorem setSlot_quiet (hs : e.Scoped) (i : Int) {s : Slot}
    (hv : s.entry.isNone = false → e.Holds s.entry.value) :
    Yields (Emit.setSlot i s) e fun _ e' => Quiet e e' := by
  refine ⟨later_pending hs _ _ hs.operands fun s' hs' => ?_, rfl⟩
  rcases Array.mem_or_eq_of_mem_setIfInBounds hs' with hmem | rfl
  · exact hs.slots s' hmem
  · exact hv

theorem Entry.isNone_of_owns {x : Entry} (h : x.owns = true) : x.isNone = false := by
  simp only [Entry.owns, Entry.isNone, decide_eq_true_eq, decide_eq_false_iff_not] at *
  rw [h]
  decide

theorem Entry.isNone_of_object {x : Entry} (h : x.kind = .object) : x.isNone = false :=
  isNone_of_owns (by simp [Entry.owns, h])

theorem getLocal_quiet (hs : e.Scoped) (i : Int) :
    Yields (Emit.getLocal i) e fun x e' => Quiet e e' ∧ e'.Holds x.value := by
  refine (slot_yields i).bind fun s e₁ ⟨he, hmem⟩ => ?_
  subst he
  split
  · refine (loadLocal_quiet hs i).bind fun v e₂ ⟨q₂, hv⟩ => ?_
    refine (setSlot_quiet q₂.inScope i fun _ => hv).bind fun _ e₃ q₃ => ?_
    have hv₃ := q₃.holds v hv
    exact (retain_quiet q₃.inScope fun _ => hv₃).bind fun _ _ q₄ =>
      ⟨(q₂.trans q₃).trans q₄, q₄.holds v hv₃⟩
  · rename_i hne
    have hv := hs.slots s hmem (by simpa using hne)
    exact (retain_quiet hs fun _ => hv).bind fun _ _ q => ⟨q, q.holds _ hv⟩

theorem setLocal_quiet (hs : e.Scoped) (i : Int) {x : Entry} (hx : e.Holds x.value) :
    Yields (Emit.setLocal i x) e fun _ e' => Quiet e e' := by
  unfold Emit.setLocal
  split
  · trivial
  refine (slot_yields i).bind fun s e₁ ⟨he, hmem⟩ => ?_
  subst he
  split
  · refine (release_quiet hs fun ho => hs.slots s hmem (Entry.isNone_of_owns ho)).bind
      fun _ e₂ q₂ => ?_
    exact (setSlot_quiet q₂.inScope i fun _ => q₂.holds _ hx).imp fun _ _ q₃ => q₂.trans q₃
  · split
    · exact release_quiet hs fun _ => hx
    · exact setSlot_quiet hs i fun _ => hx

theorem syncLocalsFrom_quiet (n i : Nat) (hs : e.Scoped) :
    Yields (Emit.syncLocalsFrom n i) e fun _ e' => Quiet e e' := by
  induction n generalizing e i with
  | zero => exact hs.refl
  | succ n ih =>
    refine (slot_yields _).bind fun s e₁ ⟨he, hmem⟩ => ?_
    subst he
    by_cases hdirty : s.dirty = true
    · by_cases hkind : s.entry.kind = .object
      · simp only [hdirty, if_true, hkind, ne_eq, not_true, if_false]
        have hv := hs.slots s hmem (Entry.isNone_of_object hkind)
        refine (loadLocal_quiet hs i).bind fun old e₁ ⟨q₁, hold⟩ => ?_
        refine (storeLocal_quiet q₁.inScope i (q₁.holds _ hv)).bind fun _ e₂ q₂ => ?_
        refine (callHelper_quiet q₂.inScope _ (by simpa using q₂.holds old hold)).bind
          fun _ e₃ ⟨q₃, _⟩ => ?_
        have q := (q₁.trans q₂).trans q₃
        refine (setSlot_quiet q₃.inScope i (s := { s with dirty := false }) fun _ => q.holds _ hv).bind
          fun _ e₄ q₄ => ?_
        exact (ih (i + 1) q₄.inScope).imp fun _ _ q₅ => (q.trans q₄).trans q₅
      · simp only [hdirty, if_true, hkind, ne_eq, not_false_eq_true]
        trivial
    · simp only [hdirty]
      exact ih (i + 1) hs

theorem syncAll_later (hs : e.Scoped) :
    Yields Emit.syncAll e fun _ e' => Later e e' ∧ e'.operands = [] := by
  refine (sync_later hs).bind fun _ e₁ ⟨l₁, hops⟩ => ?_
  unfold Emit.syncLocals
  rw [ends_bind, ends_get]
  exact (syncLocalsFrom_quiet _ 0 l₁.inScope).imp fun _ _ q₂ =>
    ⟨l₁.trans q₂.toLater, q₂.operands.trans hops⟩

theorem invalidateLocal_quiet (hs : e.Scoped) (i : Int) :
    Yields (Emit.invalidateLocal i) e fun _ e' => Quiet e e' := by
  refine (slot_yields i).bind fun s e₁ ⟨he, _⟩ => ?_
  subst he
  split
  · trivial
  · exact setSlot_quiet hs i nofun

/-- Forgetting the locals makes an emitter scoped whose operands and blocks are. -/
theorem resetLocals_yields {Q : Emitter → Prop}
    (h : Q { e with locals := .replicate e.locals.size {} }) :
    Yields Emit.resetLocals e fun _ e' => Q e' := by
  unfold Emit.resetLocals
  rw [Yields, ends_bind, ends_get]
  dsimp only
  split
  · trivial
  · exact h

theorem forall_replicate {P : Slot → Prop} (n : Nat) :
    ∀ s ∈ Array.replicate n ({} : Slot), s.entry.isNone = false → P s := by
  intro s hmem hne
  rw [(Array.mem_replicate.1 hmem).2] at hne
  exact absurd hne (by decide)

theorem resetLocals_quiet (hs : e.Scoped) : Yields Emit.resetLocals e fun _ e' => Quiet e e' :=
  resetLocals_yields ⟨later_pending hs _ _ hs.operands (forall_replicate _), rfl⟩

/-! ## Blocks -/

/-- No operand is pending if the block has ended. -/
def Emitter.Settled (e : Emitter) : Prop := e.Scoped ∧ (e.ended = true → e.operands = [])

theorem Later.settled (h : Later e e') (he : e.ended = false) : e'.Settled :=
  ⟨h.inScope, fun h' => by rw [h.ended, he] at h'; cases h'⟩

/-- A new block does not change what is known of the block at the insertion point. -/
theorem block?_push {γ : Type} (f : Function) (b : Block) (id : BlockId) (g : Block → γ) {d : γ}
    (hb : g b = d) :
    ((({ f with blocks := f.blocks.push b } : Function).block? id).map g).getD d =
      ((f.block? id).map g).getD d := by
  unfold Function.block?
  split
  · rfl
  · rw [Array.getElem?_push]
    split
    · rename_i h
      simp [h, hb]
    · rfl

theorem newBlock_quiet (hs : e.Scoped) (name : String) :
    Yields (Emit.build (.newBlock name)) e fun _ e' => Quiet e e' := by
  obtain ⟨⟨f, point⟩, method, blocks, offset, operands, locals, log⟩ := e
  have hcurrent : Emitter.current ⟨⟨{ f with blocks := f.blocks.push { name } }, point⟩, method, blocks,
      offset, operands, locals, log⟩ = Emitter.current ⟨⟨f, point⟩, method, blocks, offset, operands,
        locals, log⟩ := block?_push f { name } point _ rfl
  have hholds : ∀ v, Emitter.Holds ⟨⟨{ f with blocks := f.blocks.push { name } }, point⟩, method, blocks,
      offset, operands, locals, log⟩ v ↔ Emitter.Holds ⟨⟨f, point⟩, method, blocks, offset, operands,
        locals, log⟩ v := fun v => by rw [Emitter.Holds, hcurrent, Emitter.Holds]
  refine ⟨⟨⟨?_, ?_, hs.params, ?_, ?_⟩, fun v hv => (hholds v).2 hv, block?_push f { name } point _ rfl⟩,
    rfl⟩
  · intro b hb
    rcases Array.mem_push.1 hb with hb | rfl
    · exact hs.blocks b hb
    · exact Block.scoped_empty name
  · intro v hv
    have hresults : ({ f with blocks := f.blocks.push { name } } : Function).results = f.results := by
      simp [Function.results]
    exact (congrArg (List.count v) hresults).trans (hs.assigned v hv)
  · exact fun x hx => (hholds _).2 (hs.operands x hx)
  · exact fun t ht hne => (hholds _).2 (hs.slots t ht hne)

theorem blockAt_quiet (hs : e.Scoped) (offset : Int) :
    Yields (Emit.blockAt offset) e fun _ e' => Quiet e e' := by
  cases hget : e.blocks.get? offset with
  | some id => exact ends_of_ok (blockAt_of_some hget) hs.refl
  | none =>
    have q₁ := (newBlock_quiet hs s!"L{offset}").ok rfl
    have h₁ := q₁.inScope
    exact ends_of_ok (blockAt_of_none hget)
      ⟨⟨⟨h₁.blocks, h₁.assigned, h₁.params, h₁.operands, h₁.slots⟩, q₁.holds, q₁.ended⟩, q₁.operands⟩

theorem branchTarget_quiet (hs : e.Scoped) (next : Nat) (d : Int) :
    Yields (Emit.branchTarget next d) e fun _ e' => Quiet e e' := by
  unfold Emit.branchTarget
  rw [Yields, ends_bind, ends_get]
  dsimp only
  split
  · trivial
  split
  · split
    · exact hs.refl
    · trivial
  · exact blockAt_quiet hs _

/-- Ending a block when no operand is pending. -/
theorem terminate_settles (hs : e.Scoped) (hops : e.operands = []) {t : Term}
    (ht : ∀ v ∈ t.uses, e.Holds v) : Yields (Emit.build (.terminate t)) e fun _ e' =>
      e'.Scoped ∧ e'.operands = [] := by
  obtain ⟨⟨f, point⟩, method, blocks, offset, operands, locals, log⟩ := e
  cases hb : f.block? point with
  | none => simp only [Yields, Ends, Emit.build, Build.terminate, Build.modifyPoint, hb]
  | some b =>
    simp only [Yields, Ends, Emit.build, Build.terminate, modifyPoint_eq hb]
    have hblock : (f.modifyBlock point (Build.terminateWith t)).block? point =
        some (Build.terminateWith t b) := by rw [Function.block?_modifyBlock, hb, Option.map_some]
    have hcurrent : Emitter.current ⟨⟨f.modifyBlock point (Build.terminateWith t), point⟩, method, blocks,
        offset, operands, locals, log⟩ = Emitter.current ⟨⟨f, point⟩, method, blocks, offset, operands,
          locals, log⟩ := by
      simp only [Emitter.current, Emitter.function, hblock, hb]
      rfl
    have hinstrs : Emitter.current ⟨⟨f, point⟩, method, blocks, offset, operands, locals, log⟩ =
        b.instrs.toList := by simp only [Emitter.current, Emitter.function, hb]; rfl
    refine ⟨⟨?_, ?_, hs.params, ?_, ?_⟩, hops⟩
    · obtain ⟨-, hmem⟩ := Function.block?_eq_some.1 hb
      refine Function.forall_modifyBlock hb hs.blocks ?_
      refine (hs.blocks b (Array.mem_of_getElem? hmem)).terminate fun v hv => ?_
      rw [← hinstrs]
      exact ht v hv
    · intro v hv
      exact (results_terminate hb t v).trans (hs.assigned v hv)
    · intro x hx
      rw [Emitter.Holds, hcurrent]
      exact hs.operands x hx
    · intro s hs' hne
      rw [Emitter.Holds, hcurrent]
      exact hs.slots s hs' hne

/-! ## Instructions -/

theorem fetch_same (read : Cursor.Read α) : Yields (Emit.fetch pos read) e fun _ e' => e' = e := by
  unfold Emit.fetch
  rw [Yields, ends_bind, ends_get]
  split
  · rfl
  · trivial

theorem readImmediate_same (k : Immediate.Kind) :
    Yields (Emit.readImmediate pos k) e fun _ e' => e' = e := by
  unfold Emit.readImmediate
  rw [Yields, ends_bind, ends_get]
  cases k with
  | none => trivial
  | _ => exact fetch_same _

theorem fixedLocal_same (i : Nat) : Yields (Emit.fixedLocal i) e fun _ e' => e' = e := by
  unfold Emit.fixedLocal
  rw [Yields, ends_bind, ends_get]
  split
  · trivial
  · rfl

theorem pushCall_later (hs : e.Scoped) {k : ValueId → Entry} (hk : ∀ v, (k v).value = v) {h : Helper}
    (hres : h.signature.result ≠ .void) {args : List ValueId} (hargs : ∀ v ∈ args, e.Holds v) :
    Yields (do Emit.push (k (← Emit.callHelper h args))) e fun _ e' => Later e e' := by
  refine (callHelper_quiet hs h hargs).bind fun v e₁ ⟨q₁, hv⟩ => ?_
  refine (push_later q₁.inScope ?_).imp fun _ _ l₂ => q₁.toLater.trans l₂
  rw [hk]
  exact hv hres

theorem pushAddInt_later (hs : e.Scoped) {x y : ValueId} (hx : e.Holds x) (hy : e.Holds y) :
    Yields (do Emit.push (.int (← Emit.build (.addInt x y)))) e fun _ e' => Later e e' :=
  (addInt_quiet hs hx hy).bind fun _ _ ⟨q₁, hv⟩ =>
    (push_later (x := .int _) q₁.inScope hv).imp fun _ _ l₂ => q₁.toLater.trans l₂

theorem syncIf_later (hs : e.Scoped) {c : Bool} {x : Emit α} {Q : α → Emitter → Prop}
    (hx : ∀ e', Later e e' → Yields x e' Q) :
    Yields (do
      if c then Emit.syncAll
      x) e Q := by
  cases c with
  | true => exact (syncAll_later hs).bind fun _ e₁ ⟨l₁, _⟩ => hx e₁ l₁
  | false => exact hx e hs.refl.toLater

theorem unary_later (hs : e.Scoped) (name : String) (r : Unary) :
    Yields (Emit.unary (.ofRoutine name (.unary r)) r) e fun _ e' => Later e e' := by
  have hres : (Helper.ofRoutine name (.unary r)).signature.result ≠ .void := nofun
  refine (pop_later hs).bind fun x e₁ ⟨l₁, hx⟩ => ?_
  split
  · exact (push_later l₁.inScope hx).imp fun _ _ => l₁.trans
  · refine (const_quiet l₁.inScope 1).bind fun one e₂ ⟨q₂, hone⟩ => ?_
    exact (pushAddInt_later q₂.inScope (q₂.holds _ hx) hone).imp fun _ _ l₃ =>
      (l₁.trans q₂.toLater).trans l₃
  · refine (const_quiet l₁.inScope (-1)).bind fun one e₂ ⟨q₂, hone⟩ => ?_
    exact (pushAddInt_later q₂.inScope (q₂.holds _ hx) hone).imp fun _ _ l₃ =>
      (l₁.trans q₂.toLater).trans l₃
  · refine (box_quiet l₁.inScope hx).bind fun y e₂ ⟨q₂, hy⟩ => ?_
    exact (pushCall_later q₂.inScope (k := .object) (fun _ => rfl) hres (by simpa using hy)).imp
      fun _ _ l₃ => (l₁.trans q₂.toLater).trans l₃

theorem binaryBoxed_later (hs : e.Scoped) {h : Helper} (hres : h.signature.result ≠ .void) {a b : Entry}
    (ha : e.Holds a.value) (hb : e.Holds b.value) :
    Yields (Emit.binaryBoxed h a b) e fun _ e' => Later e e' := by
  refine (box_quiet hs ha).bind fun a e₁ ⟨q₁, ha⟩ => ?_
  refine (box_quiet q₁.inScope (q₁.holds _ hb)).bind fun b e₂ ⟨q₂, hb⟩ => ?_
  exact (pushCall_later q₂.inScope (k := .object) (fun _ => rfl) hres
    (by simp [hb, q₂.holds _ ha])).imp fun _ _ l₃ => (q₁.trans q₂).toLater.trans l₃

theorem bitAnd_later (hs : e.Scoped) {h : Helper} (hres : h.signature.result ≠ .void) {a b : Entry}
    (ha : e.Holds a.value) (hb : e.Holds b.value) :
    Yields (Emit.bitAnd h a b) e fun _ e' => Later e e' := by
  unfold Emit.bitAnd
  split
  · exact pushCall_later hs (k := .int) (fun _ => rfl) (by decide) (by simp [ha, hb])
  · exact pushCall_later hs (k := .int) (fun _ => rfl) (by decide) (by simp [ha, hb])
  · exact pushCall_later hs (k := .int) (fun _ => rfl) (by decide) (by simp [ha, hb])
  · exact pushCall_later hs (k := .object) (fun _ => rfl) hres (by simp [ha, hb])

theorem shift_later (hs : e.Scoped) {h : Helper} (hres : h.signature.result ≠ .void) (s : Shift)
    {a b : Entry} (ha : e.Holds a.value) (hb : e.Holds b.value) :
    Yields (Emit.shift h s a b) e fun _ e' => Later e e' := by
  unfold Emit.shift
  split
  · refine (box_quiet hs hb).bind fun b e₁ ⟨q₁, hb⟩ => ?_
    exact (pushCall_later q₁.inScope (k := .object) (fun _ => rfl) (by cases s <;> decide)
      (by simp [hb, q₁.holds _ ha])).imp fun _ _ l₂ => q₁.toLater.trans l₂
  · exact binaryBoxed_later hs hres ha hb

theorem binary_later (hs : e.Scoped) (name : String) (r : Binary) :
    Yields (Emit.binary (.ofRoutine name (.binary r)) r) e fun _ e' => Later e e' := by
  have hres : (Helper.ofRoutine name (.binary r)).signature.result ≠ .void := nofun
  refine (pop_later hs).bind fun b e₁ ⟨l₁, hb⟩ => ?_
  refine (pop_later l₁.inScope).bind fun a e₂ ⟨l₂, ha⟩ => ?_
  have hb₂ := l₂.holds _ hb
  suffices h : Yields _ e₂ fun _ e' => Later e₂ e' from h.imp fun _ _ l₃ => (l₁.trans l₂).trans l₃
  split
  · exact bitAnd_later l₂.inScope hres ha hb₂
  · exact shift_later l₂.inScope hres _ ha hb₂
  · exact shift_later l₂.inScope hres _ ha hb₂
  · exact shift_later l₂.inScope hres _ ha hb₂
  · split
    · exact pushAddInt_later l₂.inScope ha hb₂
    · exact binaryBoxed_later l₂.inScope hres ha hb₂
  · exact binaryBoxed_later l₂.inScope hres ha hb₂

theorem indexed_later (hs : e.Scoped) (h : Helper) (k : Immediate.Kind) (pos : Nat) :
    Yields (Emit.indexed h k pos) e fun _ e' => Later e e' := by
  refine (readImmediate_same k).bind fun ⟨i, next⟩ e₁ he => ?_
  subst he
  refine (syncAll_later hs).bind fun _ e₂ ⟨l₂, _⟩ => ?_
  refine (const_quiet l₂.inScope _).bind fun n e₃ ⟨q₃, hn⟩ => ?_
  exact (callHelper_quiet q₃.inScope h (by simp [hn, Emitter.holds_param])).bind fun _ _ ⟨q₄, _⟩ =>
    l₂.trans (q₃.trans q₄).toLater

theorem pair_later (hs : e.Scoped) (h : Helper) (ks : Immediate.Kind × Immediate.Kind) (pos : Nat) :
    Yields (Emit.pair h ks pos) e fun _ e' => Later e e' := by
  refine (readImmediate_same _).bind fun ⟨i, mid⟩ e₁ he => ?_
  subst he
  refine (readImmediate_same _).bind fun ⟨j, next⟩ e₁ he => ?_
  subst he
  refine (syncAll_later hs).bind fun _ e₂ ⟨l₂, _⟩ => ?_
  refine (const_quiet l₂.inScope _).bind fun m e₃ ⟨q₃, hm⟩ => ?_
  refine (const_quiet q₃.inScope _).bind fun n e₄ ⟨q₄, hn⟩ => ?_
  exact (callHelper_quiet q₄.inScope h (by simp [hn, q₄.holds _ hm, Emitter.holds_param])).bind
    fun _ _ ⟨q₅, _⟩ => l₂.trans ((q₃.trans q₄).trans q₅).toLater

theorem conditional_settles (hs : e.Scoped) (pos : Nat) (hv : e.Holds v) :
    Yields (Emit.conditional pos v) e fun _ e' => e'.Settled := by
  refine (fetch_same _).bind fun ⟨d, next⟩ e₁ he => ?_
  subst he
  refine (branchTarget_quiet hs next d).bind fun target e₁ q₁ => ?_
  refine (blockAt_quiet q₁.inScope next).bind fun onward e₂ q₂ => ?_
  refine (syncAll_later q₂.inScope).bind fun _ e₃ ⟨l₃, hops⟩ => ?_
  have hv₃ := l₃.holds v (q₂.holds v (q₁.holds v hv))
  exact (terminate_settles l₃.inScope hops (by simpa [Term.uses] using hv₃)).bind
    fun _ _ h => ⟨h.1, fun _ => h.2⟩

/-- The code of an instruction keeps to the rule, and leaves nothing pending if it ends the block. -/
theorem instruction_settles (hs : e.Scoped) (he : e.ended = false) (byte : UInt8) (pos : Nat) :
    Yields (Emit.instruction byte pos) e fun _ e' => e'.Settled := by
  have hparam {e : Emitter} : ∀ v ∈ [paramFrame], e.Holds v := by simp [Emitter.holds_param]
  unfold Emit.instruction
  generalize actionOfByte byte = a
  cases a with
  | none => exact hs.refl.settled he
  | debug | note =>
    refine (fetch_same _).bind fun ⟨_, next⟩ e₁ heq => ?_
    subst heq
    exact hs.refl.settled he
  | pushByte | pushShort =>
    refine (fetch_same _).bind fun ⟨n, next⟩ e₁ heq => ?_
    subst heq
    refine (const_quiet hs _).bind fun v e₁ ⟨q₁, hv⟩ => ?_
    exact (push_later (x := .int v) q₁.inScope hv).bind fun _ _ l₂ =>
      (q₁.toLater.trans l₂).settled he
  | pop =>
    refine (pop_later hs).bind fun x e₁ ⟨l₁, hx⟩ => ?_
    exact (release_quiet l₁.inScope fun _ => hx).bind fun _ _ q₂ => (l₁.trans q₂.toLater).settled he
  | dup =>
    refine (peek_quiet hs).bind fun x e₁ ⟨q₁, hx⟩ => ?_
    refine (retain_quiet q₁.inScope fun _ => hx).bind fun _ e₂ q₂ => ?_
    exact (push_later q₂.inScope (q₂.holds _ hx)).bind fun _ _ l₃ =>
      ((q₁.trans q₂).toLater.trans l₃).settled he
  | swap =>
    refine (pop_later hs).bind fun b e₁ ⟨l₁, hb⟩ => ?_
    refine (pop_later l₁.inScope).bind fun a e₂ ⟨l₂, ha⟩ => ?_
    refine (push_later l₂.inScope (l₂.holds _ hb)).bind fun _ e₃ l₃ => ?_
    exact (push_later l₃.inScope (l₃.holds _ ha)).bind fun _ _ l₄ =>
      ((l₁.trans l₂).trans (l₃.trans l₄)).settled he
  | getLocal =>
    refine (readImmediate_same _).bind fun ⟨i, next⟩ e₁ heq => ?_
    subst heq
    refine (getLocal_quiet hs i).bind fun x e₂ ⟨q₂, hx⟩ => ?_
    exact (push_later q₂.inScope hx).bind fun _ _ l₃ => (q₂.toLater.trans l₃).settled he
  | getFixed i =>
    refine (fixedLocal_same i).bind fun _ e₁ heq => ?_
    subst heq
    refine (getLocal_quiet hs i).bind fun x e₂ ⟨q₂, hx⟩ => ?_
    exact (push_later q₂.inScope hx).bind fun _ _ l₃ => (q₂.toLater.trans l₃).settled he
  | setLocal =>
    refine (readImmediate_same _).bind fun ⟨i, next⟩ e₁ heq => ?_
    subst heq
    refine (pop_later hs).bind fun x e₁ ⟨l₁, hx⟩ => ?_
    refine (box_quiet l₁.inScope hx).bind fun x e₂ ⟨q₂, hx⟩ => ?_
    exact (setLocal_quiet q₂.inScope i hx).bind fun _ _ q₃ =>
      (l₁.trans (q₂.trans q₃).toLater).settled he
  | setFixed i =>
    refine (fixedLocal_same i).bind fun _ e₁ heq => ?_
    subst heq
    refine (pop_later hs).bind fun x e₁ ⟨l₁, hx⟩ => ?_
    refine (box_quiet l₁.inScope hx).bind fun x e₂ ⟨q₂, hx⟩ => ?_
    exact (setLocal_quiet q₂.inScope i hx).bind fun _ _ q₃ =>
      (l₁.trans (q₂.trans q₃).toLater).settled he
  | kill =>
    refine (readImmediate_same _).bind fun ⟨i, next⟩ e₁ heq => ?_
    subst heq
    refine (callHelper_quiet hs _ hparam).bind fun v e₂ ⟨q₂, hv⟩ => ?_
    exact (setLocal_quiet q₂.inScope i (x := .object v) (hv nofun)).bind fun _ _ q₃ =>
      (q₂.trans q₃).toLater.settled he
  | stepLocal r =>
    refine (readImmediate_same _).bind fun ⟨i, next⟩ e₁ heq => ?_
    subst heq
    refine (getLocal_quiet hs i).bind fun x e₂ ⟨q₂, hx⟩ => ?_
    refine (callHelper_quiet q₂.inScope _ (by simpa using hx)).bind fun v e₃ ⟨q₃, hv⟩ => ?_
    exact (setLocal_quiet q₃.inScope i (x := .object v) (hv nofun)).bind fun _ _ q₄ =>
      ((q₂.trans q₃).trans q₄).toLater.settled he
  | returnVoid =>
    refine (syncAll_later hs).bind fun _ e₁ ⟨l₁, hops⟩ => ?_
    refine (resetLocals_quiet l₁.inScope).bind fun _ e₂ q₂ => ?_
    exact (terminate_settles (t := .retVoid) q₂.inScope (q₂.operands.trans hops) nofun).bind
      fun _ _ h => ⟨h.1, fun _ => h.2⟩
  | returnValue =>
    refine (pop_later hs).bind fun x e₁ ⟨l₁, hx⟩ => ?_
    refine (box_quiet l₁.inScope hx).bind fun x e₂ ⟨q₂, hx⟩ => ?_
    refine (syncAll_later q₂.inScope).bind fun _ e₃ ⟨l₃, hops⟩ => ?_
    refine (resetLocals_quiet l₃.inScope).bind fun _ e₄ q₄ => ?_
    have hx₄ := q₄.holds _ (l₃.holds _ hx)
    exact (terminate_settles q₄.inScope (q₄.operands.trans hops) (by simpa [Term.uses] using hx₄)).bind
      fun _ _ h => ⟨h.1, fun _ => h.2⟩
  | throw =>
    refine (pop_later hs).bind fun x e₁ ⟨l₁, hx⟩ => ?_
    refine (box_quiet l₁.inScope hx).bind fun x e₂ ⟨q₂, hx⟩ => ?_
    refine (syncAll_later q₂.inScope).bind fun _ e₃ ⟨l₃, hops⟩ => ?_
    refine (resetLocals_quiet l₃.inScope).bind fun _ e₄ q₄ => ?_
    have hx₄ := q₄.holds _ (l₃.holds _ hx)
    refine (callHelper_quiet q₄.inScope _ (by simpa using hx₄)).bind fun _ e₅ ⟨q₅, _⟩ => ?_
    refine (terminate_settles (t := .unreachable) q₅.inScope (q₅.operands.trans (q₄.operands.trans hops))
      nofun).bind fun _ _ h => ⟨h.1, fun _ => h.2⟩
  | supply s =>
    refine (callHelper_quiet hs _ hparam).bind fun v e₁ ⟨q₁, hv⟩ => ?_
    exact (push_later (x := .object v) q₁.inScope (hv nofun)).bind fun _ _ l₂ =>
      (q₁.toLater.trans l₂).settled he
  | constant c =>
    refine (readImmediate_same _).bind fun ⟨i, next⟩ e₁ heq => ?_
    subst heq
    refine (const_quiet hs _).bind fun n e₂ ⟨q₂, hn⟩ => ?_
    refine (callHelper_quiet q₂.inScope _ (by simp [hn, Emitter.holds_param])).bind
      fun v e₃ ⟨q₃, hv⟩ => ?_
    exact (push_later (x := .object v) q₃.inScope (hv nofun)).bind fun _ _ l₄ =>
      ((q₂.trans q₃).toLater.trans l₄).settled he
  | frame a =>
    refine (syncAll_later hs).bind fun _ e₁ ⟨l₁, _⟩ => ?_
    exact (callHelper_quiet l₁.inScope _ hparam).bind fun _ _ ⟨q₂, _⟩ =>
      (l₁.trans q₂.toLater).settled he
  | scopeObject | named a | counted a =>
    exact (indexed_later hs _ _ _).imp fun _ _ l => l.settled he
  | namedCounted a => exact (pair_later hs _ _ _).bind fun ⟨_, _, _⟩ _ l => l.settled he
  | hasNext2 =>
    refine (pair_later hs _ _ _).bind fun ⟨i, j, _⟩ e₁ l₁ => ?_
    refine (invalidateLocal_quiet l₁.inScope i).bind fun _ e₂ q₂ => ?_
    exact (invalidateLocal_quiet q₂.inScope j).bind fun _ _ q₃ =>
      (l₁.trans (q₂.trans q₃).toLater).settled he
  | unary r =>
    refine syncIf_later hs fun e₁ l₁ => ?_
    exact (unary_later l₁.inScope _ r).bind fun _ _ l₂ => (l₁.trans l₂).settled he
  | binary r =>
    refine syncIf_later hs fun e₁ l₁ => ?_
    exact (binary_later l₁.inScope _ r).bind fun _ _ l₂ => (l₁.trans l₂).settled he
  | test t =>
    refine (pop_later hs).bind fun x e₁ ⟨l₁, hx⟩ => ?_
    refine (box_quiet l₁.inScope hx).bind fun x e₂ ⟨q₂, hx⟩ => ?_
    refine (callHelper_quiet q₂.inScope _ (by simpa using hx)).bind fun v e₃ ⟨q₃, hv⟩ => ?_
    exact conditional_settles q₃.inScope pos (hv nofun)
  | compare c =>
    refine (pop_later hs).bind fun b e₁ ⟨l₁, hb⟩ => ?_
    refine (pop_later l₁.inScope).bind fun a e₂ ⟨l₂, ha⟩ => ?_
    refine (box_quiet l₂.inScope ha).bind fun a e₃ ⟨q₃, ha⟩ => ?_
    refine (box_quiet q₃.inScope (q₃.holds _ (l₂.holds _ hb))).bind fun b e₄ ⟨q₄, hb⟩ => ?_
    refine (callHelper_quiet q₄.inScope _ (by simp [hb, q₄.holds _ ha])).bind fun v e₅ ⟨q₅, hv⟩ => ?_
    exact conditional_settles q₅.inScope pos (hv nofun)
  | jump =>
    refine (fetch_same _).bind fun ⟨d, next⟩ e₁ heq => ?_
    subst heq
    refine (branchTarget_quiet hs next d).bind fun target e₁ q₁ => ?_
    refine (blockAt_quiet q₁.inScope next).bind fun _ e₂ q₂ => ?_
    refine (syncAll_later q₂.inScope).bind fun _ e₃ ⟨l₃, hops⟩ => ?_
    refine (const_quiet l₃.inScope _).bind fun n e₄ ⟨q₄, hn⟩ => ?_
    refine (callHelper_quiet q₄.inScope _ (by simp [hn, Emitter.holds_param])).bind fun _ e₅ ⟨q₅, _⟩ => ?_
    refine (terminate_settles (t := .br target) q₅.inScope (q₅.operands.trans (q₄.operands.trans hops))
      nofun).bind fun _ _ h => ⟨h.1, fun _ => h.2⟩
  | lookupSwitch | unsupported =>
    exact yields_then fun _ _ => yields_then fun _ _ => yields_then fun _ _ => trivial

/-! ## Whole methods -/

/-- Nothing that counts has changed. -/
theorem Emitter.Settled.noting (h : e.Settled) (offset : Int) (log : Array LogLine) :
    (e.noting offset log).Settled :=
  ⟨⟨h.1.blocks, h.1.assigned, h.1.params, h.1.operands, h.1.slots⟩, h.2⟩

/-- Going on in any block when nothing is pending and nothing is known of the locals. -/
theorem Emitter.Scoped.setPoint (hs : e.Scoped) (hops : e.operands = []) {locals : Array Slot}
    (hslots : ∀ s ∈ locals, s.entry.isNone = true) (id : BlockId) :
    ({ e with builder := { e.builder with point := id }, locals } : Emitter).Settled := by
  refine ⟨⟨hs.blocks, hs.assigned, hs.params, ?_, fun s hmem hne => ?_⟩, fun _ => hops⟩
  · intro x hx
    simp only [hops, List.not_mem_nil] at hx
  · rw [hslots s hmem] at hne
    cases hne

theorem terminated_yields : Yields (Emit.build .terminated) e fun t e' => t = e.ended ∧ e' = e := by
  obtain ⟨⟨f, point⟩, method, blocks, offset, operands, locals, log⟩ := e
  cases hb : f.block? point with
  | none => simp only [Yields, Ends, Emit.build, Build.terminated, hb]
  | some b =>
    simp only [Yields, Ends, Emit.build, Build.terminated, hb]
    refine ⟨?_, trivial⟩
    simp only [Emitter.ended, Emitter.function, hb]
    rfl

theorem leave_settles (hs : e.Scoped) (hops : e.operands = []) (id : BlockId) :
    Yields (do
      Emit.build (.setPoint id)
      Emit.resetLocals) e fun _ e' => e'.Settled := by
  refine Ends.bind (Q := fun _ e' => e' = { e with builder := { e.builder with point := id } })
    (ends_of_ok rfl rfl) ?_
  rintro _ _ rfl
  refine resetLocals_yields (hs.setPoint hops (fun s hmem => ?_) id)
  rw [(Array.mem_replicate.1 hmem).2]
  rfl

theorem enterBlock_settles (h : e.Settled) (id : BlockId) :
    Yields (Emit.enterBlock id) e fun _ e' => e'.Settled := by
  refine terminated_yields.bind fun t e₁ ⟨ht, he⟩ => ?_
  subst he
  cases t with
  | true => exact leave_settles h.1 (h.2 ht.symm) id
  | false =>
    refine (syncAll_later h.1).bind fun _ e₂ ⟨l₂, hops⟩ => ?_
    refine (terminate_settles (t := .br id) l₂.inScope hops nofun).bind fun _ e₃ ⟨h₃, hops₃⟩ => ?_
    rw [ends_bind, ends_get]
    refine Ends.bind (Q := fun _ e' => ∃ log, e' = e₃.noting e₃.offset log) (ends_modify.2 ⟨_, rfl⟩) ?_
    rintro _ _ ⟨log, rfl⟩
    have h₃' : e₃.Settled := ⟨h₃, fun _ => hops₃⟩
    exact leave_settles (h₃'.noting e₃.offset log).1 hops₃ id

theorem arrive_settles (h : e.Settled) (pos : Nat) :
    Yields (Emit.arrive pos) e fun _ e' => e'.Settled := by
  have hat : ∀ {e : Emitter}, e.Settled → Yields (Emit.enterAt pos) e fun _ e' => e'.Settled := by
    intro e h
    unfold Emit.enterAt
    rw [Yields, ends_bind, ends_get]
    split
    · exact enterBlock_settles h _
    · exact h
  refine Ends.bind (Q := fun _ e' => e' = e.noting pos e.log) (ends_of_ok rfl rfl) ?_
  rintro _ _ rfl
  have h' := h.noting pos e.log
  refine Ends.bind (Q := fun _ e' => e' = e.noting pos e.log) (ends_of_ok rfl rfl) ?_
  rintro label _ rfl
  split
  · refine (blockAt_quiet h'.1 pos).bind fun _ e₁ q₁ => hat ⟨q₁.inScope, fun hend => ?_⟩
    rw [q₁.operands]
    exact h'.2 (q₁.ended ▸ hend)
  · exact hat h'

theorem checkInterior_same (pos last : Nat) :
    Yields (Emit.checkInterior pos last) e fun _ e' => e' = e := by
  unfold Emit.checkInterior
  rw [Yields, ends_bind, ends_get]
  split
  · trivial
  · rfl

theorem skipFrom_settles (fuel pos : Nat) (h : e.Settled) :
    Yields (Emit.skipFrom fuel pos) e fun _ e' => e'.Settled := by
  induction fuel generalizing e pos with
  | zero => trivial
  | succ fuel ih =>
    unfold Emit.skipFrom
    rw [Yields, ends_bind, ends_get]
    split
    · exact h
    · split
      · exact h
      · refine Ends.bind (Q := fun _ e' => e' = e.noting pos e.log) (ends_of_ok rfl rfl) ?_
        rintro _ _ rfl
        refine (fetch_same _).bind fun ⟨_, next⟩ e₁ he => ?_
        subst he
        refine (checkInterior_same pos next).bind fun _ e₂ he => ?_
        subst he
        exact ih next (h.noting pos e.log)

theorem advance_settles (h : e.Settled) (byte : UInt8) (pos : Nat) :
    Yields (Emit.advance byte pos) e fun _ e' => e'.Settled := by
  refine terminated_yields.bind fun t e₁ ⟨ht, he⟩ => ?_
  subst he
  cases t with
  | true =>
    refine (skipFrom_settles _ pos h).bind fun last e₂ h₂ => ?_
    exact h₂.noting e₂.offset _
  | false =>
    refine (instruction_settles h.1 ht.symm byte (pos + 1)).bind fun next e₂ h₂ => ?_
    exact (checkInterior_same pos next).bind fun _ _ he => he ▸ h₂

theorem codeFrom_settles (fuel pos : Nat) (h : e.Settled) :
    Yields (Emit.codeFrom fuel pos) e fun _ e' => e'.Settled := by
  induction fuel generalizing e pos with
  | zero => trivial
  | succ fuel ih =>
    refine (arrive_settles h pos).bind fun _ e₁ h₁ => ?_
    rw [ends_bind, ends_get]
    split
    · exact h₁
    · exact (advance_settles h₁ _ pos).bind fun next _ h₂ => ih next h₂

theorem checkTerminated_settles (m : Method) (bs : List Block) (h : e.Settled) :
    Yields (Emit.checkTerminated m bs) e fun _ e' => e'.Settled := by
  induction bs with
  | nil => exact h
  | cons b bs ih =>
    unfold Emit.checkTerminated
    split
    · exact yields_then fun _ _ => trivial
    · exact ih

/-- The first block has been entered. -/
theorem settled_entered {m : Method} (h : Emitter.make? m = some e) : e.entered.Settled := by
  rw [make?_eq_some h]
  refine ⟨⟨?_, ?_, Nat.le_refl _, nofun, forall_replicate _⟩, fun _ => rfl⟩
  · intro b hb
    rw [Array.mem_singleton.1 hb]
    exact Block.scoped_empty _
  · intro v _
    have hnone : ¬ (3 < v ∧ v < 4) := fun ⟨h₁, h₂⟩ => Nat.not_lt.2 h₁ h₂
    exact (if_neg hnone).symm

theorem method_settles {m : Method} (h : Emitter.make? m = some e) :
    Yields Emit.method e fun _ e' => e'.Settled := by
  have hs := settled_entered h
  unfold Emit.method
  rw [Yields, ends_bind, ends_get]
  refine Ends.bind (Q := fun _ e' => e' = e.entered) (ends_of_ok (startBlock_eq h) rfl) ?_
  rintro _ _ rfl
  refine (callHelper_quiet hs.1 _ (by simp [Emitter.holds_param])).bind fun _ e₁ ⟨q₁, _⟩ => ?_
  have h₁ : e₁.Settled := ⟨q₁.inScope, fun hend => by rw [q₁.operands, hs.2 (q₁.ended ▸ hend)]⟩
  refine (codeFrom_settles _ 0 h₁).bind fun _ e₂ h₂ => ?_
  refine terminated_yields.bind fun t e₃ ⟨_, he⟩ => ?_
  subst he
  cases t with
  | true => exact checkTerminated_settles _ _ h₂
  | false => trivial

/-- In the code of a method every operand is a parameter or was assigned before in the same block, and
every value but the parameters is the result of exactly one instruction. -/
theorem generate_scoped (m : Method) (h : (generate m).fault = none) :
    (∀ b ∈ (generate m).function.blocks, b.Scoped) ∧
      ∀ v, 3 < v → v < (generate m).function.numValues → (generate m).function.results.count v = 1 := by
  obtain ⟨e, e', hmake, hrun, hfun⟩ := exists_of_generate h
  obtain ⟨hs, -⟩ := (method_settles hmake).ok hrun
  rw [hfun]
  refine ⟨hs.blocks, fun v hv hlt => ?_⟩
  exact (hs.assigned v (Nat.ne_of_gt (Nat.zero_lt_of_lt hv))).trans (if_pos ⟨hv, hlt⟩)

/-- A loop whose condition is pushed in the block that tests it. -/
theorem generate_scoped_loop :
    let m : Method := { locals := 1, code := some #[0x09, 0x26, 0x12, 0xfa, 0xff, 0xff, 0x47] }
    (generate m).fault = none ∧ (∀ b ∈ (generate m).function.blocks, b.Scoped) ∧
      (generate m).function.results.count 4 = 1 :=
  have haccepted : (generate (Method.mk "" 0 ⟨0⟩ 0 1
      (some #[0x09, 0x26, 0x12, 0xfa, 0xff, 0xff, 0x47]) none)).fault = none := by decide +kernel
  have hscoped := generate_scoped _ haccepted
  ⟨haccepted, hscoped.1, hscoped.2 4 (by decide) (by decide +kernel)⟩

end MethodJit.Compiler
