import MethodJit.Proofs.Calls

/-!
# Routines that leave the locals alone

A routine on the frame that succeeds has worked on operands and scopes, and left the locals as they were,
whatever the host has done meanwhile. The only one that changes locals moves an enumeration on, which two
of them hold.
-/

namespace MethodJit

variable {σ α β : Type} {S : Nat → Prop} {f f' f'' : Frame}

/-- The frame runs the same method, and its locals are as they were, except for those that `S` tells. -/
structure Frame.Rests (S : Nat → Prop) (f f' : Frame) : Prop where
  method : f'.method = f.method
  locals : f'.locals = f.locals
  stack : f'.stack = f.stack
  size : f'.firstSlots.size = f.firstSlots.size
  slots : ∀ k, ¬S k → f'.firstSlots[k]? = f.firstSlots[k]?

theorem Frame.Rests.refl (f : Frame) : f.Rests S f := ⟨rfl, rfl, rfl, rfl, fun _ _ => rfl⟩

theorem Frame.Rests.trans (h : f.Rests S f') (h' : f'.Rests S f'') : f.Rests S f'' where
  method := h'.method.trans h.method
  locals := h'.locals.trans h.locals
  stack := h'.stack.trans h.stack
  size := h'.size.trans h.size
  slots k hk := (h'.slots k hk).trans (h.slots k hk)

/-- If the action succeeds in a frame with its own areas, the locals are as they were, except for those that
`S` tells. -/
class Spares (S : Nat → Prop) (x : Act σ α) : Prop where
  rests {mc mc' : Machine σ} {a : α} : mc.frame.locals = some .first → mc.frame.stack = some .second →
    x mc = .ok a mc' → mc.frame.Rests S mc'.frame

namespace Spares

variable {x : Act σ α}

/-- The action leaves the whole frame as it is. -/
theorem of_frame_eq (h : ∀ mc a mc', x mc = .ok a mc' → mc'.frame = mc.frame) : Spares S x where
  rests _ _ hok := by
    rw [h _ _ _ hok]
    exact .refl _

theorem mono {S' : Nat → Prop} (h : Spares S x) (hS : ∀ k, S k → S' k) : Spares S' x where
  rests hloc hst hok :=
    have hrest := h.rests hloc hst hok
    { hrest with slots := fun k hk => hrest.slots k fun hs => hk (hS k hs) }

instance (a : α) : Spares S (pure a : Act σ α) := of_frame_eq fun _ _ _ h => by cases h; rfl

instance (ε : Fault) : Spares S (throw ε : Act σ α) := ⟨fun _ _ h => by cases h⟩

instance : Spares S (get : Act σ (Machine σ)) := of_frame_eq fun _ _ _ h => by cases h; rfl

instance : Spares S (frame : Act σ Frame) := of_frame_eq fun _ _ _ h => by cases h; rfl

instance (k : HeapM α) : Spares S (onHeap k : Act σ α) := of_frame_eq fun _ _ _ h => by
  obtain ⟨_, -, rfl⟩ := onHeap_eq_ok h
  rfl

instance (k : EStateM Fault (Store σ) α) : Spares S (onStore k) := of_frame_eq fun mc a mc' h => by
  rw [Machine.onStore_eq] at h
  cases hk : k ⟨mc.heap, mc.host⟩ with
  | ok b st =>
    rw [hk] at h
    cases h
    rfl
  | error ε st =>
    rw [hk] at h
    cases h

protected instance bind {g : α → Act σ β} [hx : Spares S x] [hg : ∀ a, Spares S (g a)] : Spares S (x >>= g) where
  rests hloc hst h := by
    obtain ⟨a, mc₁, h₁, h₂⟩ := bind_eq_ok h
    have hrest := hx.rests hloc hst h₁
    exact hrest.trans ((hg a).rests (hrest.locals.trans hloc) (hrest.stack.trans hst) h₂)

instance {c : Prop} [Decidable c] {y : Act σ α} [hx : Spares S x] [hy : Spares S y] :
    Spares S (if c then x else y) := by
  split
  · exact hx
  · exact hy

instance {y : Act σ Unit} [hx : Spares S x] [hy : Spares S y] : Spares S (ensuring x y) where
  rests {mc mc' a} hloc hst h := by
    cases hxm : x mc with
    | ok b mc₁ =>
      rw [ensuring_of_ok hxm] at h
      have hrest := hx.rests hloc hst hxm
      obtain ⟨_, mc₂, h₁, h₂⟩ := bind_eq_ok h
      cases h₂
      exact hrest.trans (hy.rests (hrest.locals.trans hloc) (hrest.stack.trans hst) h₁)
    | error ε mc₁ =>
      rw [ensuring_of_error hxm] at h
      obtain ⟨_, _, -, h₂⟩ := bind_eq_ok h
      cases h₂

instance [Spares S x] (v : Value) : Spares S (consumingAct v x) := by
  unfold consumingAct
  infer_instance

instance [hx : Spares S x] (v : Value) : Spares S (abandoning v x) where
  rests {mc mc' a} hloc hst h := by
    cases hxm : x mc with
    | ok b mc₁ =>
      rw [Machine.abandoning_ok hxm] at h
      cases h
      exact hx.rests hloc hst hxm
    | error ε mc₁ =>
      rw [Machine.abandoning_error hxm] at h
      cases h

/-! ## Slots -/

instance (a : Frame → Option Area) (i : Int64) : Spares S (readSlot a i : Act σ Value) :=
  of_frame_eq fun mc v mc' h => by
    unfold readSlot at h
    split at h <;> cases h
    rfl

instance (i : Int64) : Spares S (readLocal i : Act σ Value) := inferInstanceAs (Spares S (readSlot Frame.locals i))

theorem modifyFrame {g : Frame → Frame} (hg : ∀ f : Frame, f.Rests S (g f)) :
    Spares S (MethodJit.modifyFrame g : Act σ Unit) where
  rests _ _ h := by
    cases h
    exact hg _

theorem rests_setSlot (hst : f.stack = some .second) (i : Int64) (v : Value) :
    f.Rests S (f.setSlot f.stack i v) := by
  rw [hst]
  exact ⟨rfl, rfl, rfl, rfl, fun _ _ => rfl⟩

instance (i : Int64) (v : Value) : Spares S (writeSlot Frame.stack i v : Act σ Unit) where
  rests {mc mc' a} _ hst h := by
    unfold writeSlot at h
    simp only at h
    split at h <;> cases h
    exact rests_setSlot hst i v

/-- A local that `S` tells is written. -/
theorem writeLocal {i : Int64} (hi : S i.toNatClampNeg) (v : Value) :
    Spares S (MethodJit.writeLocal i v : Act σ Unit) where
  rests {mc mc' a} hloc _ h := by
    unfold MethodJit.writeLocal writeSlot at h
    simp only at h
    split at h <;> cases h
    rw [hloc]
    refine ⟨rfl, rfl, rfl, Array.size_setIfInBounds, fun k hk => ?_⟩
    apply Array.getElem?_setIfInBounds_ne
    rintro rfl
    exact hk hi

instance (i : Int64) (v : Value) : Spares (fun _ => True) (MethodJit.writeLocal i v : Act σ Unit) :=
  writeLocal trivial v

theorem setIndex (i : Int64) :
    Spares S (MethodJit.modifyFrame fun f => { f with stackIndex := i } : Act σ Unit) :=
  modifyFrame fun _ => ⟨rfl, rfl, rfl, rfl, fun _ _ => rfl⟩

instance (v : Value) : Spares S (push v : Act σ Unit) := by
  have (i : Int64) := setIndex (σ := σ) (S := S) i
  unfold push
  infer_instance

instance : Spares S (pop : Act σ Value) := by
  have (i : Int64) := setIndex (σ := σ) (S := S) i
  unfold pop
  infer_instance

instance (n : Nat) (i : Int64) : Spares S (unbindFrom n i : Act σ Unit) := by
  induction n generalizing i with
  | zero => exact inferInstanceAs (Spares S (pure () : Act σ Unit))
  | succ n ih =>
    unfold unbindFrom
    infer_instance

instance (n : Int32) : Spares S (popMany n : Act σ (List Value)) := by
  have (i : Int64) := setIndex (σ := σ) (S := S) i
  unfold popMany
  infer_instance

/-! ## Routines -/

instance (table : Array α) (i : Int32) : Spares S (entryAt table i : Act σ α) := by
  unfold entryAt
  split
  · infer_instance
  · split <;> infer_instance

instance (i : Int32) : Spares S (nameConstant i : Act σ String) := by
  unfold nameConstant
  infer_instance

instance (r : Supply) : Spares S (r.run : Act σ Value) := by
  cases r <;> unfold Supply.run <;> infer_instance

instance (c : Constant) (i : Int32) : Spares S (c.run i : Act σ Value) := by
  cases c <;> unfold Constant.run <;> infer_instance

instance (v : Value) : Spares S (enterScope v : Act σ Unit) :=
  modifyFrame fun _ => ⟨rfl, rfl, rfl, rfl, fun _ _ => rfl⟩

instance (v : Value) : Spares S (pushShared v : Act σ Unit) := by
  unfold pushShared
  infer_instance

instance (name : String) : Spares S (findScope? name : Act σ (Option Value)) :=
  of_frame_eq fun _ _ _ h => by cases h; rfl

instance (name : String) : Spares S (findScope name : Act σ Value) := by
  have (o : Option Value) : Spares S (match o with
      | some x => pure x
      | none => onHeap (raise "ReferenceError" (name ++ " is not defined")) : Act σ Value) := by
    cases o <;> infer_instance
  unfold findScope
  infer_instance

theorem framed {a : FrameAction} (ha : a ≠ .bindArguments) : Spares S (a.run : Act σ Unit) := by
  cases a with
  | pushScope =>
    unfold FrameAction.run
    infer_instance
  | popScope =>
    have := modifyFrame (σ := σ) (S := S) (g := fun f => { f with scope := f.scope.pop })
      fun _ => ⟨rfl, rfl, rfl, rfl, fun _ _ => rfl⟩
    refine @Spares.bind _ _ _ _ _ _ inferInstance fun f => ?_
    split <;> infer_instance
  | pushWith =>
    unfold FrameAction.run
    infer_instance
  | bindArguments => exact absurd rfl ha

variable (host : Host σ)

instance (fn receiver : Value) (args : List Value) : Spares S (callValue host fn receiver args) := by
  have (o : Option Body) : Spares S (match o with
      | some (.function name c) => onStore (apply host name c receiver args)
      | _ => onHeap do raise "TypeError" ((← kindOf fn).scriptName ++ " is not a function") : Act σ Value) := by
    split <;> infer_instance
  unfold callValue
  infer_instance

instance (fn : Address) (name : String) (c : Callable) (args : List Value) :
    Spares S (constructWith host fn name c args) := by
  have (k : Kind) (this result : Value) : Spares S (match k with
      | .object | .array | .function => do
        onHeap (release this)
        pure result
      | _ => do
        onHeap (release result)
        pure this : Act σ Value) := by
    split <;> infer_instance
  unfold constructWith
  infer_instance

instance (fn : Value) (args : List Value) : Spares S (constructValue host fn args) := by
  have (o : Option Body) : Spares S (match fn, o with
      | .ref a, some (.function name c) => constructWith host a name c args
      | _, _ => onHeap do raise "TypeError" ((← kindOf fn).scriptName ++ " is not a constructor") : Act σ Value) := by
    split <;> infer_instance
  unfold constructValue
  infer_instance

instance (a : IndexedAction) (i : Int32) : Spares S (a.run host i) := by
  cases a with
  | jump =>
    have h : Spares S (MethodJit.modifyFrame fun f => { f with jumps := f.jumps + 1 } : Act σ Unit) :=
      modifyFrame fun _ => ⟨rfl, rfl, rfl, rfl, fun _ _ => rfl⟩
    exact h
  | _ =>
    unfold IndexedAction.run
    infer_instance

instance (i argc : Int32) (lexical : Bool) : Spares S (callNamed host i argc lexical) := by
  unfold callNamed
  infer_instance

theorem paired {a : PairAction} (ha : a ≠ .hasNext2) (i j : Int32) : Spares S (a.run host i j) := by
  cases a with
  | hasNext2 => exact absurd rfl ha
  | _ =>
    unfold PairAction.run
    infer_instance

/-- An enumeration changes the two locals that hold it. -/
theorem hasNext2 (i j : Int32) :
    Spares (fun k => k = i.toInt64.toNatClampNeg ∨ k = j.toInt64.toNatClampNeg)
      (MethodJit.hasNext2 i j : Act σ Unit) := by
  have hi (v : Value) := writeLocal (σ := σ)
    (S := fun k => k = i.toInt64.toNatClampNeg ∨ k = j.toInt64.toNatClampNeg) (i := i.toInt64) (.inl rfl) v
  have hj (v : Value) := writeLocal (σ := σ)
    (S := fun k => k = i.toInt64.toNatClampNeg ∨ k = j.toInt64.toNatClampNeg) (i := j.toInt64) (.inr rfl) v
  unfold MethodJit.hasNext2
  infer_instance

end Spares

end MethodJit
