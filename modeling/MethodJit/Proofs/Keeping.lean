import MethodJit.Proofs.Outcome
import MethodJit.Routine.Signature

/-!
# What routines keep

No routine on values or frames reports a defect of a method. `Codeless` says so of actions on the heap.
`Keeps P` says so of actions on a machine that moreover keep `P`, whichever way they end.
-/

namespace MethodJit

variable {σ α β : Type}

/-- The action never fails with a defect of a method. -/
def Codeless (x : HeapM α) : Prop := ∀ h, Ends x h (fun f _ => ∀ c, f ≠ .code c) fun _ _ => True

namespace Codeless

theorem pure (a : α) : Codeless (pure a : HeapM α) := fun _ => trivial

theorem throw {f : Fault} (hf : ∀ c, f ≠ .code c) : Codeless (throw f : HeapM α) := fun _ => hf

theorem get : Codeless (get : HeapM Heap) := fun _ => trivial

theorem bind {x : HeapM α} {f : α → HeapM β} (hx : Codeless x) (hf : ∀ a, Codeless (f a)) :
    Codeless (x >>= f) := fun h => (hx h).bind fun a s _ => hf a s

theorem map {x : HeapM α} {f : α → β} (hx : Codeless x) : Codeless (f <$> x) := fun h =>
  ends_map.2 (hx h)

theorem ensuring {x : HeapM α} {y : HeapM Unit} (hx : Codeless x) (hy : Codeless y) :
    Codeless (ensuring x y) := by
  intro h
  have hx := hx h
  unfold Ends at hx ⊢
  unfold MethodJit.ensuring
  cases hxh : x h with
  | ok a h₁ =>
    have hy := hy h₁
    unfold Ends at hy
    cases hyh : y h₁ <;> simp_all
  | error f h₁ =>
    have hy := hy h₁
    unfold Ends at hy
    cases hyh : y h₁ <;> simp_all

theorem releaseAll (vs : List Value) : Codeless (Heap.releaseAll vs) := by
  intro h
  unfold Ends
  fun_induction Heap.releaseAll vs h <;> simp_all

theorem release (v : Value) : Codeless (release v) := releaseAll [v]

theorem releaseBound (v : Value) : Codeless (releaseBound v) := by
  unfold MethodJit.releaseBound
  split
  · exact release v
  · exact pure _

theorem releaseEach (vs : List Value) : Codeless (releaseEach vs) := by
  induction vs with
  | nil => exact pure _
  | cons v vs ih => exact (release v).bind fun _ => ih

theorem retain (v : Value) : Codeless (retain v) := by
  intro h
  unfold Ends MethodJit.retain
  cases v with
  | ref a => cases hc : h.cells[a]? <;> simp [hc]
  | _ => simp

theorem consuming {x : HeapM α} (hx : Codeless x) (v : Value) : Codeless (consuming v x) := by
  unfold MethodJit.consuming
  split
  · exact hx.ensuring (release v)
  · exact throw (by simp)

theorem alloc (b : Body) : Codeless (alloc b) := fun _ => trivial

theorem newInt (n : Int32) : Codeless (newInt n) := alloc _

theorem newString (s : String) : Codeless (newString s) := alloc _

theorem newNumeric (x : Double) : Codeless (newNumeric x) := by
  unfold MethodJit.newNumeric
  split
  · exact newInt _
  · exact alloc _

theorem raise (kind message : String) : Codeless (raise kind message : HeapM α) :=
  (newString _).bind fun _ => throw (by simp)

theorem kindOf (v : Value) : Codeless (kindOf v) := by
  intro h
  unfold Ends MethodJit.kindOf
  cases h.kind? v <;> simp

end Codeless

/-- The failures of a computation are no defects of a method. -/
def NoCode (x : Except Fault α) : Prop := ∀ c, x ≠ .error (.code c)

theorem NoCode.bind {x : Except Fault α} {f : α → Except Fault β} (hx : NoCode x)
    (hf : ∀ a, NoCode (f a)) : NoCode (x >>= f) := by
  cases x with
  | ok a => exact hf a
  | error e =>
    intro c h
    exact hx c (congrArg Except.error (Except.error.inj h))

theorem NoCode.mapM {f : α → Except Fault β} (hf : ∀ a, NoCode (f a)) (as : List α) :
    NoCode (as.mapM f) := by
  induction as with
  | nil => exact fun _ => nofun
  | cons a as ih =>
    rw [List.mapM_cons]
    exact (hf a).bind fun _ => ih.bind fun _ _ => nofun

theorem noCode_textWithin (h : Heap) (depth : Nat) (v : Value) : NoCode (h.textWithin depth v) := by
  induction depth generalizing v with
  | zero => exact fun _ => nofun
  | succ depth ih =>
    unfold Heap.textWithin
    have helem (e : Value) : NoCode (if e.isNullish then pure "" else if e.isBound then
        h.textWithin depth e else throw .bounds) := by
      split
      · exact fun _ => nofun
      · split
        · exact ih e
        · exact fun _ => nofun
    cases v with
    | undefined | null | bool _ => exact fun _ => nofun
    | unbound | ref _ =>
      simp only
      split
      case h_5 => exact (NoCode.mapM helem _).bind fun _ _ => nofun
      all_goals exact fun _ => nofun

namespace Codeless

theorem textOf (v : Value) : Codeless (textOf v) := by
  intro h
  have := noCode_textWithin h (h.cells.size + 1) v
  unfold Ends MethodJit.textOf Heap.toText
  cases hv : h.textWithin (h.cells.size + 1) v with
  | ok s => simp
  | error f => simpa [NoCode, hv] using this

theorem numberOf (v : Value) : Codeless (numberOf v) := fun _ => trivial

theorem wordOf (v : Value) : Codeless (wordOf v) := fun _ => trivial

theorem truthOf (v : Value) : Codeless (truthOf v) := fun _ => trivial

theorem strictEquals (a b : Value) : Codeless (strictEquals a b) :=
  (kindOf a).bind fun _ => (kindOf b).bind fun _ => get.bind fun _ => pure _

theorem numericallyEqual (a b : Value) : Codeless (numericallyEqual a b) :=
  (numberOf a).bind fun _ => (numberOf b).bind fun _ => pure _

theorem looseEquals (a b : Value) : Codeless (looseEquals a b) := by
  refine (kindOf a).bind fun k => (kindOf b).bind fun l => ?_
  split
  · exact pure _
  · split
    · exact get.bind fun _ => pure _
    · split
      · exact numericallyEqual a b
      · split
        · refine (textOf a).bind fun _ => (textOf b).bind fun _ => ?_
          split
          · exact pure _
          · exact numericallyEqual a b
        · exact pure _

theorem shared (v : Value) : Codeless (shared v) := (retain v).bind fun _ => pure _

theorem setBody (v : Value) (b : Body) : Codeless (setBody v b) := by
  intro h
  unfold Ends MethodJit.setBody
  cases v with
  | ref a => cases hc : h.cells[a]? <;> simp [hc]
  | _ => simp

theorem getProperty (v : Value) (name : String) : Codeless (getProperty v name) := by
  refine get.bind fun h => ?_
  repeat' split
  all_goals first | exact pure _ | exact shared _ | exact newInt _ | exact newString _

theorem setProperty (v : Value) (name : String) (x : Value) : Codeless (setProperty v name x) := by
  refine get.bind fun h => ?_
  split
  · split
    · refine (setBody _ _).bind fun _ => ?_
      split
      · exact release _
      · exact pure _
    · exact throw (by simp)
  · split
    · exact (setBody _ _).bind fun _ => release _
    · exact release _
  · exact release _

theorem deleteProperty (v : Value) (name : String) : Codeless (deleteProperty v name) := by
  refine get.bind fun h => ?_
  split
  · split
    · exact (setBody _ _).bind fun _ => (release _).bind fun _ => pure _
    · exact pure _
  · exact pure _

theorem nameAt (v : Value) (i : Int) : Codeless (nameAt v i) := by
  refine get.bind fun h => ?_
  repeat' split
  all_goals first | exact pure _ | exact newString _ | exact newInt _

theorem valueAt (v : Value) (i : Int) : Codeless (valueAt v i) := by
  refine get.bind fun h => ?_
  repeat' split
  all_goals first | exact pure _ | exact getProperty _ _ | exact shared _

theorem fillFrom (receiver : Value) (i : Nat) (args : List Value) :
    Codeless (fillFrom receiver i args) := by
  induction args generalizing i with
  | nil => exact pure _
  | cons x xs ih => exact (retain x).bind fun _ => (setProperty _ _ _).bind fun _ => ih _

theorem native (n : Native) (name : String) (receiver : Value) (args : List Value) :
    Codeless (n.run name receiver args) := by
  cases n with
  | nothing => exact pure _
  | receiver => exact shared _
  | first => cases args <;> first | exact pure _ | exact shared _
  | count => exact newInt _
  | collect =>
    have hretain : Codeless (args.forM MethodJit.retain) := by
      induction args with
      | nil => exact pure _
      | cons x xs ih => exact (retain x).bind fun _ => ih
    exact hretain.bind fun _ => alloc _
  | fill => exact (fillFrom _ _ _).bind fun _ => newInt _
  | fail => exact (newString _).bind fun _ => throw (by simp)

/-! ## Routines on values -/

theorem onNumber (x : Value) (f : Double → Double) : Codeless (onNumber x f) :=
  ((numberOf x).bind fun _ => newNumeric _).consuming x

theorem onWord (x : Value) (f : Int32 → Int32) : Codeless (onWord x f) :=
  ((wordOf x).bind fun _ => newInt _).consuming x

theorem onNumbers (a b : Value) (f : Double → Double → Double) : Codeless (onNumbers a b f) :=
  (((numberOf a).bind fun _ => (numberOf b).bind fun _ => newNumeric _).consuming b).consuming a

theorem onWords (a b : Value) (f : Int32 → Int32 → Int32) : Codeless (onWords a b f) :=
  (((wordOf a).bind fun _ => (wordOf b).bind fun _ => newInt _).consuming b).consuming a

theorem comparing (a b : Value) {f : Value → Value → HeapM Bool} (hf : Codeless (f a b)) :
    Codeless (comparing a b f) :=
  (hf.consuming b).consuming a

theorem lessThan (a b : Value) : Codeless (lessThan a b) := fun _ => trivial

theorem notLessThan (a b : Value) : Codeless (notLessThan a b) := fun _ => trivial

theorem greaterOrEqual (a b : Value) : Codeless (greaterOrEqual a b) := fun _ => trivial

theorem convertToString (x : Value) : Codeless (convertToString x) := by
  refine (kindOf x).bind fun k => ?_
  split
  · exact pure _
  · exact ((textOf x).bind fun _ => newString _).consuming x

theorem unary (r : Unary) (x : Value) : Codeless (r.run x) := by
  cases r with
  | convertS => exact convertToString x
  | convertI =>
    refine get.bind fun h => ?_
    split
    · exact pure _
    · exact ((wordOf x).bind fun _ => newInt _).consuming x
  | convertU =>
    refine get.bind fun h => ?_
    split
    · exact pure _
    · exact ((wordOf x).bind fun _ => alloc _).consuming x
  | convertD =>
    refine (kindOf x).bind fun k => ?_
    split
    · exact pure _
    · exact ((numberOf x).bind fun _ => alloc _).consuming x
  | convertB | not => exact ((truthOf x).bind fun _ => pure _).consuming x
  | convertO =>
    refine (kindOf x).bind fun k => ?_
    split
    · exact (release x).bind fun _ => raise _ _
    · exact pure _
  | coerceA => exact pure _
  | coerceS =>
    refine (kindOf x).bind fun k => ?_
    split
    · exact pure _
    · exact convertToString x
  | coerceO =>
    refine (kindOf x).bind fun k => ?_
    split <;> exact pure _
  | negate | increment | decrement => exact onNumber x _
  | negateI | incrementI | decrementI | bitNot => exact onWord x _
  | typeOf => exact ((kindOf x).bind fun _ => newString _).consuming x

theorem shift (s : Shift) (a : Int32) (b : Value) : Codeless (s.run a b) := by
  refine Codeless.consuming ((wordOf b).bind fun n => ?_) b
  cases s <;> exact alloc _

theorem binary (r : Binary) (a b : Value) : Codeless (r.run a b) := by
  cases r with
  | add =>
    refine (Codeless.consuming ?_ b).consuming a
    refine (kindOf a).bind fun k => ?_
    have hadd (t : Bool) : Codeless (if t then do
        let s ← MethodJit.textOf a
        let t ← MethodJit.textOf b
        MethodJit.newString (s ++ t)
      else do MethodJit.newNumeric ((← MethodJit.numberOf a) + (← MethodJit.numberOf b))) := by
      split
      · exact (textOf a).bind fun _ => (textOf b).bind fun _ => newString _
      · exact (numberOf a).bind fun _ => (numberOf b).bind fun _ => newNumeric _
    exact (kindOf b).bind fun l => hadd _
  | addI | subtractI | multiplyI | bitAnd | bitOr | bitXor => exact onWords a b _
  | subtract | multiply | divide | modulo => exact onNumbers a b _
  | lShift | rShift | uRShift => exact ((wordOf a).bind fun _ => shift _ _ _).consuming a
  | equals => exact (comparing a b (looseEquals a b)).map
  | strictEquals => exact (comparing a b (strictEquals a b)).map
  | lessThan => exact (comparing a b (lessThan a b)).map
  | lessEquals => exact (comparing b a (greaterOrEqual b a)).map
  | greaterThan => exact (comparing b a (lessThan b a)).map
  | greaterEquals => exact (comparing a b (greaterOrEqual a b)).map
  | inObject => exact (((textOf a).bind fun _ => get.bind fun _ => pure _).consuming b).consuming a
  | instanceOf =>
    refine (Codeless.consuming (get.bind fun h => ?_) b).consuming a
    split
    · split <;> exact pure _
    · exact raise _ _
  | nextName => exact (((wordOf b).bind fun _ => nameAt _ _).consuming b).consuming a
  | nextValue => exact (((wordOf b).bind fun _ => valueAt _ _).consuming b).consuming a

theorem test (t : Test) (x : Value) : Codeless (t.run x) := by
  refine Codeless.consuming ?_ x
  cases t with
  | ifTrue => exact truthOf x
  | ifFalse => exact (truthOf x).bind fun _ => pure _

theorem comparison (c : Comparison) (a b : Value) : Codeless (c.run a b) := by
  cases c with
  | ifEq => exact comparing a b (looseEquals a b)
  | ifNe => exact (comparing a b (looseEquals a b)).map
  | ifStrictEq => exact comparing a b (strictEquals a b)
  | ifStrictNe => exact (comparing a b (strictEquals a b)).map
  | ifLT => exact comparing a b (lessThan a b)
  | ifNLT => exact comparing a b (notLessThan a b)
  | ifGE => exact comparing a b (greaterOrEqual a b)
  | ifNGE => exact (comparing a b (greaterOrEqual a b)).map
  | ifGT => exact comparing b a (lessThan b a)
  | ifNGT => exact comparing b a (notLessThan b a)
  | ifLE => exact comparing b a (greaterOrEqual b a)
  | ifNLE => exact (comparing b a (greaterOrEqual b a)).map

theorem effect (e : Effect) (x : Value) : Codeless (e.run x) := by
  cases e with
  | retain => exact retain x
  | release => exact release x
  | releaseBound => exact releaseBound x
  | throw => exact throw (by simp)

theorem bitAndWord (b : Value) (a : Int32) : Codeless (bitAndWord b a) :=
  ((wordOf b).bind fun _ => pure _).consuming b

theorem storePairs (o : Value) (vs : List Value) : Codeless (storePairs o vs) := by
  fun_induction MethodJit.storePairs o vs with
  | case1 name v rest ih =>
    exact (textOf name).bind fun _ => (setProperty _ _ _).bind fun _ => (release _).bind fun _ => ih
  | case2 => exact pure _

end Codeless

/-! ## Machines -/

/-- An action of an invocation with a frame of its own. -/
theorem ends_inFrame {x : Act σ α} {f : Frame} {s : Store σ} {E : Fault → Store σ → Prop}
    {Q : α → Store σ → Prop} :
    Ends (inFrame f x) s E Q ↔ Ends x ⟨s.heap, f, s.host⟩ (fun e mc => E e ⟨mc.heap, mc.host⟩)
      fun a mc => Q a ⟨mc.heap, mc.host⟩ := by
  obtain ⟨heap, host⟩ := s
  unfold Ends inFrame
  simp only
  cases x ⟨heap, f, host⟩ <;> rfl

@[simp] theorem ends_frame {mc : Machine σ} {E : Fault → Machine σ → Prop}
    {Q : Frame → Machine σ → Prop} : Ends (frame : Act σ Frame) mc E Q ↔ Q mc.frame mc := Iff.rfl

/-- The property of frames does not depend on values, scopes and counts. -/
structure Settled (F : Frame → Prop) : Prop where
  slot : ∀ f s i v, F f → F (f.setSlot s i v)
  index : ∀ f i, F f → F { f with stackIndex := i }
  scope : ∀ f sc, F f → F { f with scope := sc }
  jumps : ∀ f n, F f → F { f with jumps := n }

/-- The action never fails with a defect of a method, and keeps properties of the frame and of the host,
whichever way it ends. -/
def Keeps (F : Frame → Prop) (I : σ → Prop) (x : Act σ α) : Prop :=
  ∀ mc : Machine σ, F mc.frame → I mc.host →
    Ends x mc (fun f mc' => (∀ c, f ≠ .code c) ∧ F mc'.frame ∧ I mc'.host) fun _ mc' =>
      F mc'.frame ∧ I mc'.host

/-- The host never fails with a defect of a method, and keeps `I`. -/
def HostKeeps (I : σ → Prop) (host : Host σ) : Prop :=
  ∀ engine index receiver args (s : Store σ), I s.host →
    Ends (host engine index receiver args) s (fun f s' => (∀ c, f ≠ .code c) ∧ I s'.host)
      fun _ s' => I s'.host

namespace Keeps

variable {F : Frame → Prop} {I : σ → Prop}

theorem pure (a : α) : Keeps F I (pure a : Act σ α) := fun _ hf hi => ⟨hf, hi⟩

theorem throw {f : Fault} (hf : ∀ c, f ≠ .code c) : Keeps F I (throw f : Act σ α) :=
  fun _ hF hi => ⟨hf, hF, hi⟩

theorem get : Keeps F I (get : Act σ (Machine σ)) := fun _ hf hi => ⟨hf, hi⟩

theorem frame : Keeps F I (frame : Act σ Frame) := fun _ hf hi => ⟨hf, hi⟩

theorem bind {x : Act σ α} {f : α → Act σ β} (hx : Keeps F I x) (hf : ∀ a, Keeps F I (f a)) :
    Keeps F I (x >>= f) := fun mc hF hi => (hx mc hF hi).bind fun a mc' h => hf a mc' h.1 h.2

theorem modifyFrame {g : Frame → Frame} (hg : ∀ f, F f → F (g f)) :
    Keeps F I (modifyFrame g : Act σ Unit) := fun mc hF hi => ⟨hg mc.frame hF, hi⟩

theorem onHeap {x : HeapM α} (hx : Codeless x) : Keeps F I (onHeap x : Act σ α) := by
  rintro ⟨heap, fr, host⟩ hF hi
  have hx := hx heap
  unfold Ends at hx ⊢
  unfold MethodJit.onHeap
  cases hxh : x heap with
  | ok a h =>
    simp only [hxh]
    exact ⟨hF, hi⟩
  | error f h =>
    simp only [hxh] at hx ⊢
    exact ⟨hx, hF, hi⟩

theorem ensuring {x : Act σ α} {y : Act σ Unit} (hx : Keeps F I x) (hy : Keeps F I y) :
    Keeps F I (ensuring x y) := by
  intro mc hF hi
  have hx := hx mc hF hi
  unfold Ends at hx ⊢
  unfold MethodJit.ensuring
  cases hxm : x mc with
  | ok a mc₁ =>
    rw [hxm] at hx
    have hy := hy mc₁ hx.1 hx.2
    unfold Ends at hy
    cases hym : y mc₁ <;> simp_all
  | error f mc₁ =>
    rw [hxm] at hx
    have hy := hy mc₁ hx.2.1 hx.2.2
    unfold Ends at hy
    cases hym : y mc₁ <;> simp_all

theorem consumingAct {x : Act σ α} (hx : Keeps F I x) (v : Value) :
    Keeps F I (consumingAct v x) := by
  unfold MethodJit.consumingAct
  split
  · exact hx.ensuring (onHeap (.release v))
  · exact throw (by simp)

theorem readSlot (s : Frame → Option Area) (i : Int64) :
    Keeps F I (readSlot s i : Act σ Value) := by
  intro mc hF hi
  unfold Ends MethodJit.readSlot
  cases mc.frame.slot? (s mc.frame) i with
  | some v => exact ⟨hF, hi⟩
  | none => exact ⟨by simp, hF, hi⟩

theorem readLocal (i : Int64) : Keeps F I (readLocal i : Act σ Value) := readSlot _ i

theorem writeSlot (hs : Settled F) (s : Frame → Option Area) (i : Int64) (v : Value) :
    Keeps F I (writeSlot s i v : Act σ Unit) := by
  intro mc hF hi
  unfold Ends MethodJit.writeSlot
  by_cases h : mc.frame.hasSlot (s mc.frame) i
  · simp only [h, if_true]
    exact ⟨hs.slot _ _ _ _ hF, hi⟩
  · simp only [h]
    exact ⟨by simp, hF, hi⟩

theorem writeLocal (hs : Settled F) (i : Int64) (v : Value) :
    Keeps F I (writeLocal i v : Act σ Unit) := writeSlot hs _ i v

theorem push (hs : Settled F) (v : Value) : Keeps F I (push v : Act σ Unit) :=
  frame.bind fun _ => (writeSlot hs _ _ v).bind fun _ => modifyFrame fun f hf => hs.index f _ hf

theorem pop (hs : Settled F) : Keeps F I (pop : Act σ Value) :=
  frame.bind fun _ => (readSlot _ _).bind fun _ => (writeSlot hs _ _ _).bind fun _ =>
    (modifyFrame fun f hf => hs.index f _ hf).bind fun _ => pure _

theorem unbindFrom (hs : Settled F) (n : Nat) (i : Int64) : Keeps F I (unbindFrom n i : Act σ Unit) := by
  induction n generalizing i with
  | zero => exact pure _
  | succ n ih => exact (writeSlot hs _ i _).bind fun _ => ih _

theorem popMany (hs : Settled F) (n : Int32) : Keeps F I (popMany n : Act σ (List Value)) := by
  refine frame.bind fun f => ?_
  simp only
  split
  · exact throw (by simp)
  · exact (unbindFrom hs _ _).bind fun _ => (modifyFrame fun f hf => hs.index f _ hf).bind fun _ =>
      pure _

/-! ## Routines on frames -/

theorem entryAt (table : Array α) (i : Int32) : Keeps F I (entryAt table i : Act σ α) := by
  unfold MethodJit.entryAt
  repeat' split
  all_goals first | exact throw (by simp) | exact pure _

theorem nameConstant (i : Int32) : Keeps F I (nameConstant i : Act σ String) :=
  frame.bind fun _ => entryAt _ _

theorem supply (s : Supply) : Keeps F I (s.run : Act σ Value) := by
  cases s with
  | pushNaN => exact onHeap (.alloc _)
  | getGlobalScope => exact frame.bind fun _ => onHeap (.shared _)
  | _ => exact pure _

theorem constant (c : Constant) (i : Int32) : Keeps F I (c.run i : Act σ Value) := by
  refine frame.bind fun f => ?_
  cases c <;> exact (entryAt _ _).bind fun _ => onHeap (.alloc _)

theorem enterScope (hs : Settled F) (v : Value) : Keeps F I (enterScope v : Act σ Unit) :=
  modifyFrame fun f hf => hs.scope f _ hf

theorem bindFrom (hs : Settled F) (i : Int64) (vs : List Value) :
    Keeps F I (bindFrom i vs : Act σ Unit) := by
  induction vs generalizing i with
  | nil => exact pure _
  | cons v vs ih => exact (onHeap (.retain v)).bind fun _ => (writeLocal hs i v).bind fun _ => ih _

theorem forM {f : α → Act σ Unit} (hf : ∀ a, Keeps F I (f a)) (as : List α) :
    Keeps F I (as.forM f) := by
  induction as with
  | nil => exact pure _
  | cons a as ih => exact (hf a).bind fun _ => ih

theorem ite {c : Prop} [Decidable c] {x y : Act σ α} (hx : Keeps F I x) (hy : Keeps F I y) :
    Keeps F I (if c then x else y) := by
  split
  · exact hx
  · exact hy

theorem bindCollected (hs : Settled F) (m : Method) (args : List Value) :
    Keeps F I (bindCollected m args : Act σ Int64) := by
  refine ite ?_ (pure _)
  split
  · exact throw (by simp)
  · exact (forM (fun v => onHeap (.retain v)) _).bind fun _ => (onHeap (.alloc _)).bind fun _ =>
      (writeLocal hs _ _).bind fun _ => pure _

theorem bindArguments (hs : Settled F) : Keeps F I (bindArguments : Act σ Unit) :=
  frame.bind fun _ => (onHeap (.retain _)).bind fun _ => (writeLocal hs _ _).bind fun _ =>
    (ite (throw (by simp)) (bindFrom hs _ _)).bind fun _ => (bindCollected hs _ _).bind fun _ =>
      ite (throw (by simp)) (bindFrom hs _ _)

theorem frameAction (hs : Settled F) (a : FrameAction) : Keeps F I (a.run : Act σ Unit) := by
  cases a with
  | pushScope => exact (pop hs).bind fun _ => enterScope hs _
  | popScope =>
    refine frame.bind fun f => ?_
    split
    · exact onHeap (.raise _ _)
    · exact (modifyFrame fun f hf => hs.scope f _ hf).bind fun _ => onHeap (.release _)
  | pushWith =>
    exact (pop hs).bind fun _ => (onHeap (.kindOf _)).bind fun _ =>
      ite (onHeap (.raise _ _)) (enterScope hs _)
  | bindArguments => exact bindArguments hs

theorem findScope? (name : String) : Keeps F I (findScope? name : Act σ (Option Value)) :=
  fun _ hF hi => ⟨hF, hi⟩

theorem findScope (name : String) : Keeps F I (findScope name : Act σ Value) := by
  refine (findScope? name).bind fun found => ?_
  split
  · exact pure _
  · exact onHeap (.raise _ _)

theorem pushShared (hs : Settled F) (v : Value) : Keeps F I (pushShared v : Act σ Unit) :=
  (onHeap (.retain v)).bind fun _ => push hs v

theorem apply {host : Host σ} (hh : HostKeeps I host) (name : String) (c : Callable)
    (receiver : Value) (args : List Value) :
    Keeps F I (onStore (apply host name c receiver args) : Act σ Value) := by
  have hhosted (engine : Option Nat) (index : Nat) :
      Keeps F I (onStore (host engine index receiver args) : Act σ Value) := by
    rintro ⟨heap, fr, st⟩ hF hi
    have h := hh engine index receiver args ⟨heap, st⟩ hi
    unfold Ends at h ⊢
    simp only [MethodJit.onStore]
    cases hx : host engine index receiver args ⟨heap, st⟩ <;> simp_all
  cases c with
  | native n =>
    rintro ⟨heap, fr, st⟩ hF hi
    have h := Codeless.native n name receiver args heap
    unfold Ends at h ⊢
    simp only [MethodJit.onStore, MethodJit.apply, onStoredHeap]
    cases hx : n.run name receiver args heap <;> simp_all
  | method engine index => exact hhosted (some engine) index
  | foreign index => exact hhosted none index

theorem callValue {host : Host σ} (hh : HostKeeps I host) (fn receiver : Value) (args : List Value) :
    Keeps F I (callValue host fn receiver args) := by
  refine ((ensuring (get.bind fun mc => ?_) (onHeap (.releaseEach args))).consumingAct
    receiver).consumingAct fn
  split
  · exact apply hh _ _ _ _
  · exact onHeap ((Codeless.kindOf _).bind fun _ => .raise _ _)

theorem abandoning {x : Act σ α} (hx : Keeps F I x) (this : Value) :
    Keeps F I (abandoning this x) := by
  intro mc hF hi
  have hx := hx mc hF hi
  unfold Ends MethodJit.abandoning
  cases hxm : x mc with
  | ok a mc' => exact hx.ok hxm
  | error f mc' =>
    have hf := hx.error hxm
    exact hf

theorem constructWith {host : Host σ} (hh : HostKeeps I host) (fn : Address) (name : String)
    (c : Callable) (args : List Value) : Keeps F I (constructWith host fn name c args) := by
  refine (onHeap (.alloc _)).bind fun this => ((apply hh _ _ _ _).abandoning this).bind
    fun result => (onHeap (.kindOf _)).bind fun k => ?_
  split <;> exact (onHeap (.release _)).bind fun _ => pure _

theorem constructValue {host : Host σ} (hh : HostKeeps I host) (fn : Value) (args : List Value) :
    Keeps F I (constructValue host fn args) := by
  refine (ensuring (get.bind fun mc => ?_) (onHeap (.releaseEach args))).consumingAct fn
  split
  · exact constructWith hh _ _ _ _
  · exact onHeap ((Codeless.kindOf _).bind fun _ => .raise _ _)

theorem indexed (hs : Settled F) {host : Host σ} (hh : HostKeeps I host) (a : IndexedAction)
    (i : Int32) : Keeps F I (a.run host i) := by
  cases a with
  | getScopeObject =>
    exact frame.bind fun _ => ite (onHeap (.raise _ _))
      ((entryAt _ _).bind fun _ => pushShared hs _)
  | findPropStrict =>
    exact (nameConstant i).bind fun _ => (findScope _).bind fun _ => pushShared hs _
  | findProperty =>
    exact (nameConstant i).bind fun _ => (findScope? _).bind fun _ => frame.bind fun _ =>
      pushShared hs _
  | getLex =>
    exact (nameConstant i).bind fun _ => (findScope _).bind fun _ =>
      (onHeap (.getProperty _ _)).bind fun _ => push hs _
  | getProperty =>
    exact (pop hs).bind fun _ => ((nameConstant i).bind fun _ =>
      (onHeap (.getProperty _ _)).bind fun _ => push hs _).consumingAct _
  | setProperty | initProperty =>
    exact (pop hs).bind fun _ => (pop hs).bind fun _ => ((nameConstant i).bind fun _ =>
      onHeap (.setProperty _ _ _)).consumingAct _
  | deleteProperty =>
    exact (pop hs).bind fun _ => ((nameConstant i).bind fun _ =>
      (onHeap (.deleteProperty _ _)).bind fun _ => push hs _).consumingAct _
  | call =>
    exact (popMany hs i).bind fun _ => (pop hs).bind fun _ => (pop hs).bind fun _ =>
      (callValue hh _ _ _).bind fun _ => push hs _
  | construct =>
    exact (popMany hs i).bind fun _ => (pop hs).bind fun _ => (constructValue hh _ _).bind fun _ =>
      push hs _
  | newObject =>
    exact (popMany hs _).bind fun _ => (onHeap (.alloc _)).bind fun _ =>
      (onHeap (.storePairs _ _)).bind fun _ => push hs _
  | newArray => exact (popMany hs i).bind fun _ => (onHeap (.alloc _)).bind fun _ => push hs _
  | jump =>
    have hjump (f : Frame) (hf : F f) : F { f with jumps := f.jumps + 1 } := hs.jumps f _ hf
    exact modifyFrame hjump

theorem callNamed (hs : Settled F) {host : Host σ} (hh : HostKeeps I host) (i argc : Int32)
    (lexical : Bool) : Keeps F I (callNamed host i argc lexical) :=
  (popMany hs argc).bind fun _ => (pop hs).bind fun _ => (nameConstant i).bind fun _ =>
    (onHeap (.getProperty _ _)).bind fun _ =>
      ite ((onHeap (.release _)).bind fun _ => callValue hh _ _ _) (callValue hh _ _ _)

theorem hasNext2 (hs : Settled F) (i j : Int32) : Keeps F I (hasNext2 i j : Act σ Unit) := by
  refine (readLocal _).bind fun x => (readLocal _).bind fun old => get.bind fun mc =>
    (onHeap (.newInt _)).bind fun _ => (writeLocal hs _ _).bind fun _ =>
      (onHeap (.release _)).bind fun _ => ?_
  exact ite ((writeLocal hs _ _).bind fun _ => (onHeap (.release _)).bind fun _ => push hs _)
    (push hs _)

theorem pair (hs : Settled F) {host : Host σ} (hh : HostKeeps I host) (a : PairAction) (i j : Int32) :
    Keeps F I (a.run host i j) := by
  cases a with
  | callProperty | callPropLex => exact (callNamed hs hh i j _).bind fun _ => push hs _
  | callPropVoid => exact (callNamed hs hh i j _).bind fun _ => onHeap (.release _)
  | constructProp =>
    exact (popMany hs j).bind fun _ => (pop hs).bind fun _ => ((nameConstant i).bind fun _ =>
      (onHeap (.getProperty _ _)).bind fun _ => (constructValue hh _ _).bind fun _ =>
        push hs _).consumingAct _
  | hasNext2 => exact hasNext2 hs i j

theorem routine (hs : Settled F) {host : Host σ} (hh : HostKeeps I host) (r : Routine)
    (args : List Word) : Keeps F I (r.call host args) := by
  cases r with
  | unary r => exact (onHeap (.unary r _)).bind fun _ => pure _
  | binary r => exact (onHeap (.binary r _ _)).bind fun _ => pure _
  | test t => exact (onHeap (.test t _)).bind fun _ => pure _
  | compare c => exact (onHeap (.comparison c _ _)).bind fun _ => pure _
  | effect e => exact (onHeap (.effect e _)).bind fun _ => pure _
  | frame a => exact (frameAction hs a).bind fun _ => pure _
  | indexed a => exact (indexed hs hh a _).bind fun _ => pure _
  | pair a => exact (pair hs hh a _ _).bind fun _ => pure _
  | supply s => exact (supply s).bind fun _ => pure _
  | constant c => exact (constant c _).bind fun _ => pure _
  | box => exact (onHeap (.newInt _)).bind fun _ => pure _
  | bitAndInts => exact pure _
  | bitAndMixed => exact (onHeap (.bitAndWord _ _)).bind fun _ => pure _
  | shift s => exact (onHeap (.shift s _ _)).bind fun _ => pure _

theorem releaseLocals (hs : Settled F) (n : Nat) (i : Int64) :
    Keeps F I (releaseLocals n i : Act σ Unit) := by
  induction n generalizing i with
  | zero => exact pure _
  | succ n ih =>
    refine (readLocal i).bind fun x => ?_
    exact ite ((onHeap (.release x)).bind fun _ => (writeLocal hs i _).bind fun _ => ih _) (ih _)

theorem releaseOperands (hs : Settled F) (n : Nat) (i : Int64) :
    Keeps F I (releaseOperands n i : Act σ Unit) := by
  induction n generalizing i with
  | zero => exact pure _
  | succ n ih =>
    exact (readSlot _ i).bind fun x => (onHeap (.release x)).bind fun _ =>
      (writeSlot hs _ i _).bind fun _ => ih _

theorem releaseFrame (hs : Settled F) : Keeps F I (releaseFrame : Act σ Unit) :=
  frame.bind fun _ => (releaseLocals hs _ _).bind fun _ => (releaseOperands hs _ _).bind fun _ =>
    (modifyFrame fun f hf => hs.index f _ hf).bind fun _ =>
      (forM (fun x => onHeap (.release x)) _).bind fun _ => modifyFrame fun f hf => hs.scope f _ hf

end Keeps

end MethodJit
