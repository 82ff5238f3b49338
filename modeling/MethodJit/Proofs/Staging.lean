import MethodJit.IR.Run
import MethodJit.Proofs.Frames
import MethodJit.Proofs.Scoping

/-!
# Running code while it is emitted

An action that emits code can be followed together with a run of the code that it emits. `Staged` says how
the run of the new instructions ends; it is closed under sequencing, so that the code of an instruction is
understood piece by piece, in the order in which it is emitted. `Performs` says that the new instructions
do what an action of an invocation does.
-/

namespace MethodJit.IR

variable {σ : Type} {host : Host σ} {regs regs' regs'' : Registers} {v : ValueId} {w : Word}

/-- Carries out an instruction. -/
def Instr.exec (host : Host σ) (i : Instr) (regs : Registers) : Act σ Registers :=
  match lowerInstr "" i with
  | .ok s => s.exec host regs
  | .error _ => throw .bounds

def execInstrs (host : Host σ) : List Instr → Registers → Act σ Registers
  | [], regs => pure regs
  | i :: is, regs => do execInstrs host is (← i.exec host regs)

theorem execInstrs_append (is js : List Instr) (regs : Registers) :
    execInstrs host (is ++ js) regs = execInstrs host is regs >>= execInstrs host js := by
  induction is generalizing regs with
  | nil => exact (pure_bind ..).symm
  | cons i is ih =>
    simp only [List.cons_append, execInstrs, bind_assoc]
    congr 1
    funext regs₁
    exact ih regs₁

/-- The block in which an instruction stands does not matter. -/
theorem lowerInstr_block {i : Instr} {block : String} {s : Step} (hs : lowerInstr block i = .ok s)
    (block' : String) : lowerInstr block' i = .ok s := by
  unfold lowerInstr at hs ⊢
  split at hs
  case h_11 =>
    split at hs
    · cases hs
    · split at hs
      · cases hs
      · rename_i hlen
        cases hs
        simp only [if_neg hlen]
  case h_12 => cases hs
  all_goals exact hs

theorem execSteps_eq {block : String} {is : List Instr} {ss : List Step}
    (hs : is.mapM (lowerInstr block) = .ok ss) (regs : Registers) :
    execSteps host ss regs = execInstrs host is regs := by
  induction is generalizing ss regs with
  | nil =>
    cases hs
    rfl
  | cons i is ih =>
    simp only [List.mapM_cons, bind, Except.bind] at hs
    split at hs
    · cases hs
    · rename_i s hi
      split at hs
      · cases hs
      · rename_i ss' hss
        cases hs
        simp only [execSteps, execInstrs, Instr.exec, lowerInstr_block hi ""]
        congr 1
        funext regs₁
        exact ih hss regs₁

/-! ## Registers -/

/-- The registers below `n` hold the same. -/
structure SameBelow (n : Nat) (regs regs' : Registers) : Prop where
  size : regs'.size = regs.size
  words : ∀ v < n, regs'.at v = regs.at v

theorem SameBelow.refl (n : Nat) (regs : Registers) : SameBelow n regs regs := ⟨rfl, fun _ _ => rfl⟩

theorem SameBelow.trans {n k : Nat} (h : SameBelow n regs regs') (h' : SameBelow k regs' regs'')
    (hle : n ≤ k) : SameBelow n regs regs'' :=
  ⟨h'.size.trans h.size, fun v hv => (h'.words v (Nat.lt_of_lt_of_le hv hle)).trans (h.words v hv)⟩

theorem at_set (hv : v < regs.size) : (Registers.at (regs.setIfInBounds v w) v) = w := by
  rw [Registers.at, Array.getElem?_setIfInBounds_self_of_lt hv]
  rfl

theorem sameBelow_set : SameBelow v regs (regs.setIfInBounds v w) := by
  refine ⟨Array.size_setIfInBounds, fun u hu => ?_⟩
  rw [Registers.at, Registers.at, Array.getElem?_setIfInBounds_ne (Nat.ne_of_gt hu)]

end MethodJit.IR

namespace MethodJit.Compiler

open IR

variable {σ α β γ δ : Type} {host : Host σ} {e e' e'' : Emitter} {regs regs' : IR.Registers}
  {m : Machine σ} {E : Fault → Machine σ → Prop}

/-! ## Emitting forward -/

/-- Code was appended to the block. -/
structure Onward (e e' : Emitter) : Prop where
  types : e.types.size ≤ e'.types.size
  code : e.current <+: e'.current

theorem Onward.refl (e : Emitter) : Onward e e := ⟨Nat.le_refl _, List.prefix_rfl⟩

theorem Onward.trans (h : Onward e e') (h' : Onward e' e'') : Onward e e'' :=
  ⟨Nat.le_trans h.types h'.types, h.code.trans h'.code⟩

theorem Onward.of_builder (h : e'.builder = e.builder) : Onward e e' := by
  have htypes : e'.types = e.types := by rw [Emitter.types, Emitter.function, h]; rfl
  have hcode : e'.current = e.current := by rw [Emitter.current, Emitter.function, h]; rfl
  exact ⟨Nat.le_of_eq (by rw [htypes]), hcode ▸ List.prefix_rfl⟩

/-- The instructions that were appended. -/
def emitted (e e' : Emitter) : List Instr := e'.current.drop e.current.length

theorem Onward.current_eq (h : Onward e e') : e'.current = e.current ++ emitted e e' := by
  obtain ⟨is, his⟩ := h.code
  rw [emitted, ← his, List.drop_left]

theorem emitted_trans (h : Onward e e') (h' : Onward e' e'') :
    emitted e e'' = emitted e e' ++ emitted e' e'' := by
  have heq := h'.current_eq
  rw [h.current_eq, List.append_assoc] at heq
  rw [emitted, heq, List.drop_left]

/-- The action only appends code. -/
class Forward (x : Emit α) : Prop where
  onward : ∀ {e a e'}, x e = .ok a e' → Onward e e'

namespace Forward

instance (a : α) : Forward (Pure.pure a : Emit α) := ⟨fun h => by cases h; exact Onward.refl _⟩

instance (f : Fault) : Forward (throw f : Emit α) := ⟨fun h => by cases h⟩

instance : Forward (get : Emit Emitter) := ⟨fun h => by cases h; exact Onward.refl _⟩

instance {x : Emit α} {f : α → Emit β} [hx : Forward x] [hf : ∀ a, Forward (f a)] :
    Forward (x >>= f) where
  onward h := by
    obtain ⟨a, e₁, h₁, h₂⟩ := bind_eq_ok h
    exact (hx.onward h₁).trans ((hf a).onward h₂)

instance {c : Prop} [Decidable c] {x y : Emit α} [hx : Forward x] [hy : Forward y] :
    Forward (if c then x else y) := by
  split
  · exact hx
  · exact hy

theorem modify {f : Emitter → Emitter} (hf : ∀ e, (f e).builder = e.builder) :
    Forward (modify f : Emit Unit) :=
  ⟨fun h => by cases h; exact Onward.of_builder (hf _)⟩

instance (t : Ty) (i : Instr) : Forward (Emit.build (.append t i)) where
  onward {e v e'} h := by
    obtain ⟨-, rfl, b, hb⟩ := (build_append_yields t i).ok h
    refine ⟨?_, ?_⟩
    · have : (e.appended t { i with result := v }).types = e.types ++ (resultTypes t).toArray := rfl
      rw [this, Array.size_append]
      exact Nat.le_add_right _ _
    · rw [current_appended hb]
      exact List.prefix_append ..

theorem build_bind (x : Build α) (f : α → Build β) :
    Emit.build (x >>= f) = Emit.build x >>= fun a => Emit.build (f a) := by
  funext e
  simp only [Emit.build, bind, EStateM.bind]
  cases x e.builder <;> rfl

theorem build_pure (a : α) : Emit.build (pure a) = (pure a : Emit α) := rfl

instance (frame : ValueId) (field : Field) (x : ValueId) :
    Forward (Emit.build (.storeField frame field x)) := by
  unfold Build.storeField
  rw [build_bind]
  simp only [build_pure]
  infer_instance

instance (area index x : ValueId) : Forward (Emit.build (.storeElem area index x)) := by
  unfold Build.storeElem
  rw [build_bind]
  simp only [build_pure]
  infer_instance

instance (area index : ValueId) : Forward (Emit.build (.loadElem area index)) := by
  unfold Build.loadElem
  infer_instance

instance (x y : ValueId) : Forward (Emit.build (.addInt x y)) := by
  unfold Build.addInt
  infer_instance

instance (h : Helper) (args : List ValueId) : Forward (Emit.callHelper h args) := by
  unfold Emit.callHelper Build.call
  infer_instance

instance (n : Int32) : Forward (Emit.const n) := by
  unfold Emit.const Build.constInt
  infer_instance

instance : Forward Emit.stackIndex := by
  unfold Emit.stackIndex Build.loadField
  infer_instance

instance (message : String) : Forward (Emit.defect message : Emit α) := by
  unfold Emit.defect
  infer_instance

instance (x : Entry) : Forward (Emit.retain x) := by
  unfold Emit.retain
  infer_instance

instance (x : Entry) : Forward (Emit.release x) := by
  unfold Emit.release
  infer_instance

instance (x : Entry) : Forward (Emit.box x) := by
  unfold Emit.box
  split <;> infer_instance

instance (v : ValueId) : Forward (Emit.pushReal v) := by
  unfold Emit.pushReal
  infer_instance

instance : Forward Emit.topIndex := by
  unfold Emit.topIndex
  infer_instance

instance : Forward Emit.popReal := by
  unfold Emit.popReal
  infer_instance

instance : Forward Emit.peekReal := by
  unfold Emit.peekReal
  infer_instance

instance (i : Int) : Forward (Emit.loadLocal i) := by
  unfold Emit.loadLocal
  infer_instance

instance (i : Int) (v : ValueId) : Forward (Emit.storeLocal i v) := by
  unfold Emit.storeLocal
  infer_instance

instance (x : Entry) : Forward (Emit.push x) := by
  unfold Emit.push
  have := modify (f := fun s => { s with operands := x :: s.operands }) fun _ => rfl
  infer_instance

instance : Forward Emit.pop where
  onward {e a e'} h := by
    unfold Emit.pop at h
    cases hops : e.operands with
    | nil =>
      simp only [get_bind, hops] at h
      exact (inferInstance : Forward (do pure (Entry.object (← Emit.popReal)))).onward h
    | cons x rest =>
      simp only [get_bind, hops] at h
      cases h
      exact Onward.of_builder rfl

instance : Forward Emit.peek where
  onward {e a e'} h := by
    unfold Emit.peek at h
    cases hops : e.operands with
    | nil =>
      simp only [get_bind, hops] at h
      exact (inferInstance : Forward (do pure (Entry.object (← Emit.peekReal)))).onward h
    | cons x rest =>
      simp only [get_bind, hops] at h
      cases h
      exact Onward.refl _

theorem pushEntries (xs : List Entry) : Forward (Emit.pushEntries xs) := by
  induction xs with
  | nil => exact inferInstanceAs (Forward (Pure.pure ()))
  | cons x xs ih =>
    unfold Emit.pushEntries
    infer_instance

instance (xs : List Entry) : Forward (Emit.pushEntries xs) := pushEntries xs

instance : Forward Emit.sync := by
  unfold Emit.sync
  have := modify (f := fun s => { s with operands := [] }) fun _ => rfl
  infer_instance

instance (i : Int) : Forward (Emit.slot i) := by
  unfold Emit.slot
  have (s : Option Slot) : Forward (match s with
      | some s => Pure.pure s
      | none => Emit.defect s!"local {i} out of range" : Emit Slot) := by
    cases s <;> infer_instance
  infer_instance

instance (i : Int) (s : Slot) : Forward (Emit.setSlot i s) := modify fun _ => rfl

instance (i : Int) : Forward (Emit.getLocal i) := by
  unfold Emit.getLocal
  infer_instance

instance (i : Int) (x : Entry) : Forward (Emit.setLocal i x) := by
  unfold Emit.setLocal
  infer_instance

theorem syncLocalsFrom (n i : Nat) : Forward (Emit.syncLocalsFrom n i) := by
  induction n generalizing i with
  | zero => exact inferInstanceAs (Forward (Pure.pure ()))
  | succ n ih =>
    have := ih (i + 1)
    unfold Emit.syncLocalsFrom
    infer_instance

instance (n i : Nat) : Forward (Emit.syncLocalsFrom n i) := syncLocalsFrom n i

instance : Forward Emit.syncLocals := by
  unfold Emit.syncLocals
  infer_instance

instance : Forward Emit.syncAll := by
  unfold Emit.syncAll
  infer_instance

end Forward

/-! ## Staged actions -/

/-- The action emits code whose run ends as told. The registers that were in use are kept. -/
def Staged (host : Host σ) (x : Emit α) (e : Emitter) (regs : IR.Registers) (m : Machine σ)
    (E : Fault → Machine σ → Prop) (Q : α → Emitter → IR.Registers → Machine σ → Prop) : Prop :=
  ∀ a e', x e = .ok a e' → e'.types.size ≤ regs.size →
    Ends (execInstrs host (emitted e e') regs) m E fun regs' m' =>
      SameBelow e.types.size regs regs' ∧ Q a e' regs' m'

variable {x : Emit α} {f : α → Emit β} {Q Q' : α → Emitter → IR.Registers → Machine σ → Prop}
  {R : β → Emitter → IR.Registers → Machine σ → Prop} {E' : Fault → Machine σ → Prop}

theorem Staged.mono [hfx : Forward x] (h : Staged host x e regs m E Q)
    (hE : ∀ ε m', E ε m' → E' ε m')
    (hQ : ∀ a e' regs' m', Onward e e' → SameBelow e.types.size regs regs' → Q a e' regs' m' →
      Q' a e' regs' m') : Staged host x e regs m E' Q' :=
  fun a e' hx hsize => (h a e' hx hsize).mono hE fun _ _ ⟨hsame, hq⟩ =>
    ⟨hsame, hQ _ _ _ _ (hfx.onward hx) hsame hq⟩

/-- An action that emits nothing. -/
theorem Staged.silent (h : ∀ a e', x e = .ok a e' → e'.builder = e.builder ∧ Q a e' regs m) :
    Staged host x e regs m E Q := by
  intro a e' hx _
  obtain ⟨hb, hq⟩ := h a e' hx
  have hcode : emitted e e' = [] := by
    have : e'.current = e.current := by rw [Emitter.current, Emitter.function, hb]; rfl
    rw [emitted, this, List.drop_length]
  rw [hcode]
  exact ⟨SameBelow.refl _ _, hq⟩

theorem Staged.pure {a : α} (h : Q a e regs m) : Staged host (pure a) e regs m E Q :=
  .silent fun _ _ hx => by cases hx; exact ⟨rfl, h⟩

theorem Staged.bind [hfx : Forward x] [hff : ∀ a, Forward (f a)] (hx : Staged host x e regs m E Q)
    (hf : ∀ a e₁ regs₁ m₁, Onward e e₁ → SameBelow e.types.size regs regs₁ → Q a e₁ regs₁ m₁ →
      Staged host (f a) e₁ regs₁ m₁ E R) : Staged host (x >>= f) e regs m E R := by
  intro b e₂ hrun hsize
  obtain ⟨a, e₁, hx₁, hf₁⟩ := bind_eq_ok hrun
  have ho₁ := hfx.onward hx₁
  have ho₂ := (hff a).onward hf₁
  rw [emitted_trans ho₁ ho₂, execInstrs_append]
  refine (hx a e₁ hx₁ (Nat.le_trans ho₂.types hsize)).bind fun regs₁ m₁ ⟨hsame, hq⟩ => ?_
  refine (hf a e₁ regs₁ m₁ ho₁ hsame hq b e₂ hf₁ (hsame.size.symm ▸ hsize)).imp ?_
  exact fun regs₂ m₂ ⟨hsame₂, hr⟩ => ⟨hsame.trans hsame₂ ho₁.types, hr⟩

/-- Looking at the emitter. -/
theorem Staged.get {f : Emitter → Emit β} (h : Staged host (f e) e regs m E R) :
    Staged host (MonadState.get >>= f) e regs m E R := h

/-! ## What single instructions do -/

/-- Nothing pending has changed. -/
structure Idle (e e' : Emitter) : Prop where
  operands : e'.operands = e.operands
  locals : e'.locals = e.locals
  method : e'.method = e.method

theorem Idle.refl (e : Emitter) : Idle e e := ⟨rfl, rfl, rfl⟩

theorem Idle.trans (h : Idle e e') (h' : Idle e' e'') : Idle e e'' :=
  ⟨h'.operands.trans h.operands, h'.locals.trans h.locals, h'.method.trans h.method⟩

/-- The new code does what an action of the invocation does. -/
def Performs (host : Host σ) (e : Emitter) (regs : IR.Registers) (x : Emit α) (y : Act σ γ)
    (T : α → γ → Emitter → IR.Registers → Prop) : Prop :=
  ∀ m, Staged host x e regs m (fun ε m' => y m = .error ε m') fun a e' regs' m' =>
    Idle e e' ∧ ∃ c, y m = .ok c m' ∧ T a c e' regs'

/-- The value is in its register. -/
def Holding (word : γ → Word) (v : ValueId) (c : γ) (e : Emitter) (regs : IR.Registers) : Prop :=
  v < e.types.size ∧ regs.at v = word c

/-- The registers of the parameters hold them. -/
structure Primed (e : Emitter) (regs : IR.Registers) : Prop where
  types : 4 ≤ e.types.size
  locals : regs.at paramLocals = .area (some .first)
  stack : regs.at paramStack = .area (some .second)
  frame : regs.at paramFrame = .context

theorem Primed.onward (h : Primed e regs) (ho : Onward e e')
    (hs : SameBelow e.types.size regs regs') : Primed e' regs' where
  types := Nat.le_trans h.types ho.types
  locals := (hs.words _ (Nat.lt_of_lt_of_le (by decide) h.types)).trans h.locals
  stack := (hs.words _ (Nat.lt_of_lt_of_le (by decide) h.types)).trans h.stack
  frame := (hs.words _ (Nat.lt_of_lt_of_le (by decide) h.types)).trans h.frame

variable {y : Act σ γ} {g : γ → Act σ δ} {T T' : α → γ → Emitter → IR.Registers → Prop}
  {U : β → δ → Emitter → IR.Registers → Prop}

theorem Performs.bind [Forward x] [∀ a, Forward (f a)] (hx : Performs host e regs x y T)
    (hf : ∀ a c e₁ regs₁, Onward e e₁ → SameBelow e.types.size regs regs₁ → T a c e₁ regs₁ →
      Performs host e₁ regs₁ (f a) (g c) U) : Performs host e regs (x >>= f) (y >>= g) U := by
  intro m
  refine Staged.bind ((hx m).mono (fun ε m' he => bind_of_error he) fun _ _ _ _ _ _ h => h) ?_
  rintro a e₁ regs₁ m₁ ho hs ⟨hi, c, hy, ht⟩
  refine (hf a c e₁ regs₁ ho hs ht m₁).mono (fun ε m' he => ?_)
    fun b e₂ regs₂ m₂ _ _ ⟨hi₂, d, hg, hu⟩ => ?_
  · rw [bind_of_ok hy, he]
  · exact ⟨hi.trans hi₂, d, by rw [bind_of_ok hy, hg], hu⟩

theorem Performs.pure {a : α} {c : γ} (h : T a c e regs) :
    Performs host e regs (pure a) (pure c : Act σ γ) T :=
  fun _ => .pure ⟨Idle.refl e, c, rfl, h⟩

/-- The value that is known beforehand. -/
theorem Performs.of_pure [Forward x] {c : γ} (h : Performs host e regs x (Pure.pure c : Act σ γ) T) :
    Performs host e regs x (Pure.pure c : Act σ γ) fun a d e' regs' => d = c ∧ T a c e' regs' := by
  refine fun m => (h m).mono (fun _ _ he => he) ?_
  rintro a e' regs' m' - - ⟨hi, d, hok, ht⟩
  cases hok
  exact ⟨hi, c, rfl, rfl, ht⟩

/-- The action on the left is looked at in another form. -/
theorem Performs.congr {y' : Act σ γ} (h : Performs host e regs x y T) (hy : y = y') :
    Performs host e regs x y' T := hy ▸ h

/-- A new instruction with a result. -/
theorem performs_append {t : Ty} {i : Instr} (ht : t ≠ .void) (hp : Primed e regs) {word : γ → Word}
    (hexec : ∀ v ≠ 0, ∀ m, ({ i with result := v } : Instr).exec host regs m =
      (do pure (regs.setIfInBounds v (word (← y)))) m) :
    Performs host e regs (Emit.build (.append t i)) y (Holding word) := by
  intro m v e' hrun hsize
  obtain ⟨hv, rfl, b, hb⟩ := (build_append_yields t i).ok hrun
  have htypes : (e.appended t { i with result := v }).types.size = e.types.size + 1 := by
    have : (e.appended t { i with result := v }).types = e.types ++ (resultTypes t).toArray := rfl
    rw [this, Array.size_append, resultTypes, if_neg ht]
    rfl
  have hfresh : v = e.types.size := by rw [hv, Emitter.fresh, if_neg ht]
  have hne : v ≠ 0 := by
    rw [hfresh]
    exact Nat.ne_of_gt (Nat.lt_of_lt_of_le (by decide) hp.types)
  rw [htypes] at hsize
  have hlt : v < regs.size := by rw [hfresh]; exact hsize
  have hcode : emitted e (e.appended t { i with result := v }) = [{ i with result := v }] := by
    rw [emitted, current_appended hb, List.drop_left]
  have hrun : execInstrs host [{ i with result := v }] regs =
      ({ i with result := v } : Instr).exec host regs := bind_pure _
  rw [hcode, hrun, Ends, hexec v hne]
  cases hy : y m with
  | error ε m' => rw [bind_of_error hy]
  | ok c m' =>
    rw [bind_of_ok hy]
    refine ⟨?_, ⟨rfl, rfl, rfl⟩, c, rfl, ?_, at_set hlt⟩
    · rw [← hfresh]
      exact sameBelow_set
    · rw [htypes, hfresh]
      exact Nat.lt_succ_self _

/-- A new instruction without a result. -/
theorem performs_append_void {i : Instr}
    (hexec : ∀ m, ({ i with result := 0 } : Instr).exec host regs m = (do let _ ← y; pure regs) m) :
    Performs host e regs (Emit.build (.append .void i)) y fun _ _ _ _ => True := by
  intro m v e' hrun hsize
  obtain ⟨hv, rfl, b, hb⟩ := (build_append_yields .void i).ok hrun
  obtain rfl : v = 0 := hv
  have hcode : emitted e (e.appended .void { i with result := 0 }) = [{ i with result := 0 }] := by
    rw [emitted, current_appended hb, List.drop_left]
  have hrun : execInstrs host [{ i with result := 0 }] regs =
      ({ i with result := 0 } : Instr).exec host regs := bind_pure _
  rw [hcode, hrun, Ends, hexec]
  cases hy : y m with
  | error ε m' => rw [bind_of_error hy]
  | ok c m' =>
    rw [bind_of_ok hy]
    exact ⟨SameBelow.refl _ _, ⟨rfl, rfl, rfl⟩, c, rfl, trivial⟩

theorem performs_const (hp : Primed e regs) (n : Int32) :
    Performs host e regs (Emit.const n) (pure n.toInt64 : Act σ Int64) (Holding .int) :=
  performs_append (by decide) hp fun _ _ _ => rfl

theorem performs_addInt (hp : Primed e regs) (u v : ValueId) :
    Performs host e regs (Emit.build (.addInt u v))
      (pure ((regs.at u).toInt32 + (regs.at v).toInt32).toInt64 : Act σ Int64) (Holding .int) :=
  performs_append (by decide) hp fun _ _ _ => rfl

theorem performs_stackIndex (hp : Primed e regs) : Performs host e regs Emit.stackIndex
    (do pure (← frame).stackIndex : Act σ Int64) (Holding .int) := by
  refine performs_append (by decide) hp fun v _ m => ?_
  simp only [Instr.exec, lowerInstr, Step.exec, hp.frame]
  rfl

theorem performs_storeIndex (hp : Primed e regs) (x : ValueId) :
    Performs host e regs (Emit.build (.storeField paramFrame .stackIndex x))
      (modifyFrame fun f => { f with stackIndex := (regs.at x).toInt } : Act σ Unit)
      fun _ _ _ _ => True := by
  unfold Build.storeField
  rw [Forward.build_bind]
  simp only [Forward.build_pure]
  refine Performs.congr (Performs.bind (performs_append_void fun m => ?_) fun _ _ _ _ _ _ _ =>
    Performs.pure (c := ()) trivial) bind_pure_unit
  simp only [Instr.exec, lowerInstr, Step.exec, hp.frame]
  rfl

theorem performs_loadElem (hp : Primed e regs) (area index : ValueId) :
    Performs host e regs (Emit.build (.loadElem area index))
      (readSlot (fun _ => (regs.at area).toArea) (regs.at index).toInt : Act σ Value)
      (Holding .value) :=
  performs_append (by decide) hp fun _ _ _ => rfl

theorem performs_storeElem (area index x : ValueId) :
    Performs host e regs (Emit.build (.storeElem area index x))
      (writeSlot (fun _ => (regs.at area).toArea) (regs.at index).toInt (regs.at x).toValue : Act σ Unit)
      fun _ _ _ _ => True := by
  unfold Build.storeElem
  rw [Forward.build_bind]
  simp only [Forward.build_pure]
  exact Performs.congr (Performs.bind (performs_append_void fun m => rfl) fun _ _ _ _ _ _ _ =>
    Performs.pure (c := ()) trivial) bind_pure_unit

theorem exec_call (name : String) (r : Routine) {args : List ValueId}
    (hargs : args.length = r.signature.params.length) (v : ValueId) (regs : IR.Registers) :
    Instr.exec host { op := .call, result := v, args, helper := some (.ofRoutine name r) } regs =
      Step.exec host (.call v r args) regs := by
  have hlen : ¬maxArgs < args.length := Nat.not_lt.2 (hargs ▸ Routine.length_params r)
  simp only [Instr.exec, lowerInstr, Helper.ofRoutine, if_neg hlen]

/-- The call of a routine that gives a word. -/
theorem performs_call (hp : Primed e regs) (name : String) {r : Routine} {args : List ValueId}
    {word : γ → Word} (hcall : r.call host (args.map regs.at) = do pure (word (← y)))
    (hargs : args.length = r.signature.params.length) (hresult : r.signature.result ≠ .void) :
    Performs host e regs (Emit.callHelper (.ofRoutine name r) args) y (Holding word) := by
  refine performs_append hresult hp fun v hv m => ?_
  rw [exec_call name r hargs, Step.exec, hcall]
  simp only [if_neg hv, bind_assoc, pure_bind]

/-- The call of a routine that gives nothing. -/
theorem performs_effect (name : String) {r : Routine} {args : List ValueId} {y : Act σ Unit}
    (hcall : r.call host (args.map regs.at) = do y; pure .blank)
    (hargs : args.length = r.signature.params.length) (hresult : r.signature.result = .void) :
    Performs host e regs (Emit.callHelper (.ofRoutine name r) args) y fun _ _ _ _ => True := by
  have hvoid : (Helper.ofRoutine name r).signature.result = .void := hresult
  unfold Emit.callHelper Build.call
  rw [hvoid]
  refine performs_append_void fun m => ?_
  rw [exec_call name r hargs, Step.exec, hcall]
  simp only [bind_assoc, pure_bind]
  rfl

/-! ## The real stack and the locals -/

theorem Holding.kept {word : γ → Word} {v : ValueId} {c : γ} (h : Holding word v c e regs)
    (ho : Onward e e') (hs : SameBelow e.types.size regs regs') : Holding word v c e' regs' :=
  ⟨Nat.lt_of_lt_of_le h.1 ho.types, (hs.words v h.1).trans h.2⟩

theorem performs_topIndex (hp : Primed e regs) :
    Performs host e regs Emit.topIndex (topIndex : Act σ Int64) (Holding .int) := by
  refine Performs.congr (Performs.bind (g := fun i => pure (-1 : Int32).toInt64 >>= fun one =>
    pure (i.toInt32 + one.toInt32).toInt64) (performs_stackIndex hp) ?_) ?_
  · intro i n e₁ regs₁ ho hs hi
    have hp₁ := hp.onward ho hs
    refine Performs.bind (performs_const hp₁ (-1)) fun one d e₂ regs₂ ho₂ hs₂ hone => ?_
    refine Performs.congr (performs_addInt (hp₁.onward ho₂ hs₂) i one) ?_
    rw [(hi.kept ho₂ hs₂).2, hone.2]
    rfl
  · simp only [topIndex, bind_assoc, pure_bind, Int32.toInt32_toInt64]

theorem performs_popReal (hp : Primed e regs) :
    Performs host e regs Emit.popReal (popReal : Act σ Value) (Holding .value) := by
  refine Performs.bind (performs_topIndex hp) fun i n e₁ regs₁ ho hs hi => ?_
  have hp₁ := hp.onward ho hs
  refine Performs.bind (Performs.congr (performs_storeIndex hp₁ i) ?_) fun _ _ e₂ regs₂ ho₂ hs₂ _ => ?_
  · rw [hi.2]
    rfl
  · have hp₂ := hp₁.onward ho₂ hs₂
    refine Performs.congr (performs_loadElem hp₂ paramStack i) ?_
    rw [hp₂.stack, (hi.kept ho₂ hs₂).2]
    rfl

theorem performs_peekReal (hp : Primed e regs) :
    Performs host e regs Emit.peekReal (peekReal : Act σ Value) (Holding .value) := by
  refine Performs.bind (performs_topIndex hp) fun i n e₁ regs₁ ho hs hi => ?_
  have hp₁ := hp.onward ho hs
  refine Performs.congr (performs_loadElem hp₁ paramStack i) ?_
  rw [hp₁.stack, hi.2]
  rfl

theorem performs_pushReal (hp : Primed e regs) {v : ValueId} (hv : v < e.types.size) :
    Performs host e regs (Emit.pushReal v) (pushReal (regs.at v).toValue : Act σ Unit)
      fun _ _ _ _ => True := by
  refine Performs.congr (Performs.bind (g := fun i => writeSlot (fun _ => some .second) i
    (regs.at v).toValue >>= fun _ => pure (1 : Int32).toInt64 >>= fun one =>
      pure (i.toInt32 + one.toInt32).toInt64 >>= fun next =>
        modifyFrame fun f => { f with stackIndex := next }) (performs_stackIndex hp) ?_) ?_
  · intro i n e₁ regs₁ ho₁ hs₁ hi
    have hp₁ := hp.onward ho₁ hs₁
    refine Performs.bind (Performs.congr (performs_storeElem paramStack i v) ?_)
      fun _ _ e₂ regs₂ ho₂ hs₂ _ => ?_
    · rw [hp₁.stack, hi.2, hs₁.words v hv]
      rfl
    have hp₂ := hp₁.onward ho₂ hs₂
    have hi₂ := hi.kept ho₂ hs₂
    refine Performs.bind (performs_const hp₂ 1) fun one c e₃ regs₃ ho₃ hs₃ hone => ?_
    have hp₃ := hp₂.onward ho₃ hs₃
    refine Performs.bind (Performs.congr (performs_addInt hp₃ i one) ?_)
      fun next k e₄ regs₄ ho₄ hs₄ hnext => ?_
    · rw [(hi₂.kept ho₃ hs₃).2, hone.2]
      rfl
    · refine Performs.congr (performs_storeIndex (hp₃.onward ho₄ hs₄) next) ?_
      rw [hnext.2]
      rfl
  · simp only [pushReal, bind_assoc, pure_bind, Int32.toInt32_toInt64]

/-- The position of a local in compiled code. -/
theorem toInt64_ofInt {i : Nat} (hi : i < 2 ^ 31) : (Int32.ofInt i).toInt64 = .ofNat i := by
  apply Int64.toInt_inj.1
  rw [Int32.toInt_toInt64, Int32.toInt_ofInt_of_le (by omega) (by omega),
    Int64.toInt_ofNat_of_lt (by omega)]

theorem performs_loadLocal (hp : Primed e regs) {i : Nat} (hi : i < 2 ^ 31) :
    Performs host e regs (Emit.loadLocal i) (readSlot (fun _ => some .first) (.ofNat i) : Act σ Value)
      (Holding .value) := by
  refine Performs.congr (Performs.bind (g := fun n => readSlot (fun _ => some .first) n)
    (performs_const hp (.ofInt i)) ?_) ?_
  · intro n c e₁ regs₁ ho hs hn
    have hp₁ := hp.onward ho hs
    refine Performs.congr (performs_loadElem hp₁ paramLocals n) ?_
    rw [hp₁.locals, hn.2]
    rfl
  · rw [pure_bind, toInt64_ofInt hi]

theorem performs_storeLocal (hp : Primed e regs) {i : Nat} (hi : i < 2 ^ 31) {v : ValueId}
    (hv : v < e.types.size) :
    Performs host e regs (Emit.storeLocal i v)
      (writeSlot (fun _ => some .first) (.ofNat i) (regs.at v).toValue : Act σ Unit)
      fun _ _ _ _ => True := by
  refine Performs.congr (Performs.bind (g := fun n => writeSlot (fun _ => some .first) n
    (regs.at v).toValue) (performs_const hp (.ofInt i)) ?_) ?_
  · intro n c e₁ regs₁ ho hs hn
    have hp₁ := hp.onward ho hs
    refine Performs.congr (performs_storeElem paramLocals n v) ?_
    rw [hp₁.locals, hn.2, hs.words v hv]
    rfl
  · rw [pure_bind, toInt64_ofInt hi]

end MethodJit.Compiler
