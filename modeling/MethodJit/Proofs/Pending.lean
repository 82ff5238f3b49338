import MethodJit.Proofs.Lanes
import MethodJit.Proofs.Staging

/-!
# Pending values as a lane

Compiled code between two instructions stands for a lane: the operands on the real stack and, above
them, the pending entries; the locals in their places and the pending ones. `Fits` relates the emitter,
the registers and the invocation to the lane. `Realizes` says that the new code carries out an action on
the lane; it follows the emitter's actions one by one.
-/

namespace MethodJit

/-- The frame holds nothing that the lane does not own. -/
def Lane.Covers (ℓ : Lane) (f : Frame) : Prop :=
  ∃ L O S, f.Holds L O S ∧ (L.map Value.refs).sum + ↑O + ↑S ≤ ℓ.refs

/-- Replaces a local and gives up the displaced value. -/
def replaceLocal {σ : Type} (a : Frame → Option Area) (i : Nat) (v : Value) : Act σ Unit := do
  let old ← readSlot a (.ofNat i)
  writeSlot a (.ofNat i) v
  onHeap (releaseBound old)

theorem replaceLocal_eq {σ : Type} {s : σ} {h : Heap} {f : Frame} {V : View} {a : Frame → Option Area}
    {i : Nat} {p v : Value} (hf : f.Shows V) (ha : a f = some .first) (hp : V.locals[i]? = some p)
    (hlt : i < 2 ^ 63) :
    replaceLocal a i v (⟨h, f, s⟩ : Machine σ) = onHeap (releaseBound p) ⟨h, f.setLocal i v, s⟩ ∧
      (f.setLocal i v).Shows { V with locals := V.locals.set i v } := by
  have hsize : i < f.firstSlots.size := by
    rw [← Array.length_toList, hf.slots]
    exact (List.getElem?_eq_some_iff.1 hp).1
  refine ⟨?_, hf.setLocal i v⟩
  rw [replaceLocal, bind_of_ok (readSlot_ok (by rw [ha]; exact hf.slot?_local hp hlt)),
    bind_of_ok (writeLocal_ok ha hsize hlt)]

/-- Pushes items on the real stack, the first one first. -/
def pushItems {σ : Type} : List Item → Act σ Unit
  | [] => pure ()
  | x :: xs => do
    let v ← onHeap x.box
    pushReal v
    pushItems xs

theorem Item.exists_box (x : Item) (h : Heap) : ∃ v h', x.box h = .ok v h' := by
  cases x with
  | object v => exact ⟨v, h, rfl⟩
  | int n => exact ⟨_, _, rfl⟩

/-- Pushing items stores the operands of a lane, as far as there are slots for them. -/
theorem pushItems_storeOperands {σ : Type} {s : σ} {V : View} {f : Frame} {ℓ : Lane} (Y : List Item)
    (hf : f.Shows V) (hcap : ℓ.capacity = V.capacity)
    (hops : ℓ.operands = Y.reverse ++ V.operands.reverse.map .object) :
    (∃ h f' O, pushItems Y (⟨ℓ.heap, f, s⟩ : Machine σ) = .ok () ⟨h, f', s⟩ ∧
      f'.Shows { V with operands := O } ∧
      Lane.storeOperands Y (V.operands.reverse.map .object) ℓ =
        .ok () { ℓ with heap := h, operands := O.reverse.map .object }) ∨
    ∃ h f' O Z, pushItems Y (⟨ℓ.heap, f, s⟩ : Machine σ) = .error .bounds ⟨h, f', s⟩ ∧
      f'.Shows { V with operands := O } ∧
      Lane.storeOperands Y (V.operands.reverse.map .object) ℓ =
        .error .bounds { ℓ with heap := h, operands := Z ++ O.reverse.map .object } := by
  induction Y generalizing V f ℓ with
  | nil =>
    refine .inl ⟨ℓ.heap, f, V.operands, rfl, hf, ?_⟩
    rw [List.reverse_nil, List.nil_append] at hops
    rw [← hops]
    rfl
  | cons x Y ih =>
    obtain ⟨v, h₁, hbox⟩ := x.exists_box ℓ.heap
    have hact : onHeap x.box (⟨ℓ.heap, f, s⟩ : Machine σ) = .ok v ⟨h₁, f, s⟩ := by
      simp only [onHeap, hbox]
    have hlane : Lane.onHeap x.box ℓ = .ok v { ℓ with heap := h₁ } := by
      simp only [Lane.onHeap, Lane.reading, hbox]
    have hlen : (V.operands.reverse.map Item.object).length = V.operands.length := by simp
    rw [pushItems, Lane.storeOperands, bind_of_ok hact, bind_of_ok hlane]
    simp only [get_bind, modify_bind, hlen, hcap]
    by_cases hfull : V.capacity ≤ V.operands.length
    · right
      rw [bind_of_error (pushReal_error hf hfull), if_pos hfull]
      exact ⟨h₁, f, V.operands, Y.reverse ++ [.object v], rfl, hf, by simp; rfl⟩
    · obtain ⟨f', hpush, hf'⟩ := pushReal_ok (h := h₁) (s := s) (v := v) hf (Nat.lt_of_not_le hfull)
      rw [bind_of_ok hpush, if_neg hfull]
      have hstep := ih (ℓ := { ℓ with
        heap := h₁
        operands := Y.reverse ++ .object v :: V.operands.reverse.map .object }) hf' hcap (by simp)
      simpa using hstep

theorem Supply.run_eq {σ : Type} {m : Machine σ} {V : View} (r : Supply) (hf : m.frame.Shows V) :
    r.run m = onHeap (r.make V.scope V.global) m := by
  cases r with
  | getGlobalScope =>
    obtain ⟨heap, f, s⟩ := m
    have hscope : V.scope[0]? = f.scope[0]? := by rw [← hf.scope, Array.getElem?_toList]
    have hglobal : V.global = f.global := hf.global.symm
    simp only [Supply.run, Supply.make, hscope, hglobal]
    rfl
  | _ => rfl

theorem Constant.run_eq {σ : Type} {m : Machine σ} {V : View} (k : Constant) (hf : m.frame.Shows V)
    (i : Int32) : k.run i m = onHeap (k.make V.method.constants i) m := by
  obtain ⟨heap, f, s⟩ := m
  have hmethod : V.method = f.method := hf.method.symm
  simp only [Constant.run, Constant.make, Constant.body?, hmethod, bind, EStateM.bind, frame, entryAt]
  by_cases hi : i < 0
  · cases k <;> simp only [hi, if_true] <;> rfl
  · simp only [hi, if_false]
    cases k with
    | pushInt => cases f.method.constants.ints[i.toNatClampNeg]? <;> rfl
    | pushUInt => cases f.method.constants.uints[i.toNatClampNeg]? <;> rfl
    | pushDouble => cases f.method.constants.doubles[i.toNatClampNeg]? <;> rfl
    | pushString => cases f.method.constants.strings[i.toNatClampNeg]? <;> rfl

/-- The action throws nothing. -/
def Nothrow {α : Type} (x : HeapM α) : Prop := ∀ h v h', x h ≠ .error (.thrown v) h'

theorem nothrow_pure {α : Type} (a : α) : Nothrow (pure a) := fun _ _ _ h => by cases h

theorem nothrow_alloc (b : Body) : Nothrow (alloc b) := fun _ _ _ h => by cases h

theorem nothrow_retain (v : Value) : Nothrow (retain v) := by
  intro h w h' hr
  unfold retain at hr
  split at hr
  · cases hr
  · split at hr <;> cases hr
  · cases hr

theorem nothrow_shared (v : Value) : Nothrow (shared v) := by
  intro h w h' hr
  simp only [shared, bind, EStateM.bind] at hr
  split at hr
  · cases hr
  · cases hr
    exact nothrow_retain v h w h' (by assumption)

theorem nothrow_releaseAll (pending : List Value) : Nothrow (Heap.releaseAll pending) := by
  intro h w h' hr
  fun_induction Heap.releaseAll pending h with
  | case1 | case2 | case6 | case7 => cases hr
  | case3 _ _ ih | case4 _ _ ih | case5 _ _ _ ih | case8 _ _ _ _ _ ih | case9 _ _ _ _ _ _ ih => exact ih hr

theorem nothrow_releaseBound (v : Value) : Nothrow (releaseBound v) := by
  unfold releaseBound
  split
  · exact nothrow_releaseAll [v]
  · exact nothrow_pure ()

theorem Item.nothrow_box (x : Item) : Nothrow x.box := by
  cases x with
  | object v => exact nothrow_pure v
  | int n => exact nothrow_alloc (.int n)

theorem Item.nothrow_retain (x : Item) : Nothrow x.retain := by
  cases x with
  | object v => exact MethodJit.nothrow_retain v
  | int n => exact nothrow_pure ()

theorem Item.nothrow_release (x : Item) : Nothrow x.release := by
  cases x with
  | object v => exact nothrow_releaseAll [v]
  | int n => exact nothrow_pure ()

theorem Supply.nothrow_make (r : Supply) (scope : List Value) (global : Value) :
    Nothrow (r.make scope global) := by
  cases r with
  | pushNaN => exact nothrow_alloc _
  | getGlobalScope => exact nothrow_shared _
  | _ => exact nothrow_pure _

theorem Constant.nothrow_make (k : Constant) (pool : Pool) (i : Int32) : Nothrow (k.make pool i) := by
  unfold Constant.make
  split
  · exact nothrow_alloc _
  · exact fun _ _ _ h => by cases h

namespace Lane

variable {ℓ : Lane}

theorem shareTop_nil (hℓ : ℓ.operands = []) : shareTop ℓ = .error .bounds ℓ := by
  obtain ⟨setting, heap, operands, locals, scope⟩ := ℓ
  obtain rfl : operands = [] := hℓ
  rfl

theorem shareTop_cons {x : Item} {rest : List Item} (hℓ : ℓ.operands = x :: rest) :
    shareTop ℓ = (do onHeap x.retain; pure x) ℓ := by
  simp only [shareTop, onHeap, reading, hℓ, bind, EStateM.bind]
  cases x.retain ℓ.heap <;> rfl

/-- The value of a local. -/
def valueOf (i : Nat) : LaneM Value := fun ℓ =>
  match ℓ.locals[i]? with
  | none => .error .bounds ℓ
  | some l => .ok l.value ℓ

/-- Objects that are in their places already. -/
theorem storeOperands_objects {A : List Value} {R T : List Item}
    (hops : ℓ.operands = R.reverse ++ (A.reverse.map .object ++ T))
    (hroom : A.length + T.length ≤ ℓ.capacity) :
    storeOperands (A.map .object ++ R) T ℓ = storeOperands R (A.reverse.map .object ++ T) ℓ := by
  induction A generalizing T with
  | nil => rfl
  | cons v A ih =>
    rw [List.length_cons] at hroom
    have hsame : (A.map Item.object ++ R).reverse ++ .object v :: T = ℓ.operands := by simp [hops]
    have hstep : storeOperands (.object v :: (A.map .object ++ R)) T ℓ =
        storeOperands (A.map .object ++ R) (.object v :: T) ℓ := by
      have hbox : onHeap (Item.object v).box ℓ = .ok v ℓ := rfl
      rw [storeOperands, bind_of_ok hbox]
      simp only [get_bind, modify_bind, hsame, if_neg (by omega : ¬ℓ.capacity ≤ T.length)]
    rw [List.map_cons, List.cons_append, hstep, ih (by simp [hops]) (by simp only [List.length_cons]; omega)]
    simp

theorem share_eq (i : Nat) : share i = (do
    let v ← valueOf i
    onHeap (retain v)
    pure v) := by
  funext ℓ
  obtain ⟨setting, heap, operands, locals, scope⟩ := ℓ
  simp only [share, valueOf, reading, onHeap, shared, bind, EStateM.bind]
  cases locals[i]? with
  | none => rfl
  | some l =>
    dsimp only [EStateM.bind]
    cases retain l.value heap <;> rfl

end Lane

namespace Compiler

open IR

variable {σ α β γ δ : Type} {host : Host σ} {c : Prop} {e e' : Emitter} {regs regs' : IR.Registers}
  {m : Machine σ} {V : View} {ℓ : Lane}

/-- What an entry stands for. -/
def Entry.Means (e : Emitter) (regs : IR.Registers) (x : Entry) : Item → Prop
  | .object v => x.kind = .object ∧ x.value < e.types.size ∧ (regs.at x.value).toValue = v
  | .int n => x.kind = .int ∧ x.value < e.types.size ∧ (regs.at x.value).toInt32 = n

/-- What a slot says of a local that has the value `p` in its place. -/
structure Slot.Stands (e : Emitter) (regs : IR.Registers) (s : Slot) (p : Value) (l : Local) : Prop where
  dirty : s.dirty = true → ∃ v, s.entry.Means e regs (.object v) ∧ l = ⟨v, some p⟩
  clean : s.dirty = false → l = ⟨p, none⟩
  known : s.dirty = false → s.entry.isNone = false → s.entry.Means e regs (.object p)

structure Fits (e : Emitter) (regs : IR.Registers) (m : Machine σ) (V : View) (ℓ : Lane) : Prop where
  primed : Primed e regs
  frame : m.frame.Shows V
  heap : ℓ.heap = m.heap
  setting : ℓ.toSetting = V.toSetting
  scope : ℓ.scope = V.scope
  operands : ∃ Y, List.Forall₂ (Entry.Means e regs) e.operands Y ∧
    ℓ.operands = Y ++ V.operands.reverse.map .object
  size : e.locals.size = V.locals.length
  length : ℓ.locals.length = V.locals.length
  slots : ∀ (i : Nat) (s : Slot) (p : Value) (l : Local), e.locals[i]? = some s → V.locals[i]? = some p →
    ℓ.locals[i]? = some l → s.Stands e regs p l
  /-- Compiled code reaches the locals that it knows of. -/
  near : ∀ (i : Nat) (s : Slot), e.locals[i]? = some s → s ≠ {} → i < 2 ^ 31

theorem Entry.Means.kept {x : Entry} {y : Item} (h : x.Means e regs y) (ho : Onward e e')
    (hs : SameBelow e.types.size regs regs') : x.Means e' regs' y := by
  cases y with
  | object v => exact ⟨h.1, Nat.lt_of_lt_of_le h.2.1 ho.types, by rw [hs.words _ h.2.1]; exact h.2.2⟩
  | int n => exact ⟨h.1, Nat.lt_of_lt_of_le h.2.1 ho.types, by rw [hs.words _ h.2.1]; exact h.2.2⟩

theorem Slot.Stands.kept {s : Slot} {p : Value} {l : Local} (h : s.Stands e regs p l) (ho : Onward e e')
    (hs : SameBelow e.types.size regs regs') : s.Stands e' regs' p l where
  dirty hd := by
    obtain ⟨v, hv, hl⟩ := h.dirty hd
    exact ⟨v, hv.kept ho hs, hl⟩
  clean := h.clean
  known hd hn := (h.known hd hn).kept ho hs

theorem means_object_of_holding {v : ValueId} {w : Value} (h : Holding .value v w e regs) :
    (Entry.object v).Means e regs (.object w) := ⟨rfl, h.1, by rw [Entry.object, h.2]; rfl⟩

theorem means_int_of_holding {v : ValueId} {n : Int32} (h : Holding .int v n.toInt64 e regs) :
    (Entry.int v).Means e regs (.int n) := by
  refine ⟨rfl, h.1, ?_⟩
  rw [Entry.int, h.2]
  exact Int32.toInt32_toInt64 n

/-- Code that moves operands. -/
theorem Fits.withOperands (hf : Fits e regs m V ℓ) (ho : Onward e e')
    (hs : SameBelow e.types.size regs regs') (hlocals : e'.locals = e.locals) {f : Frame}
    {O : List Value} (hframe : f.Shows { V with operands := O }) {Y : List Item}
    (hY : List.Forall₂ (Entry.Means e' regs') e'.operands Y) (h : Heap) :
    Fits e' regs' ⟨h, f, m.host⟩ { V with operands := O }
      { ℓ with heap := h, operands := Y ++ O.reverse.map .object } where
  primed := hf.primed.onward ho hs
  frame := hframe
  heap := rfl
  setting := hf.setting
  scope := hf.scope
  operands := ⟨Y, hY, rfl⟩
  size := by rw [hlocals, hf.size]
  length := hf.length
  slots i s p l := by
    rw [hlocals]
    exact fun h₁ h₂ h₃ => (hf.slots i s p l h₁ h₂ h₃).kept ho hs
  near := by
    rw [hlocals]
    exact hf.near

/-- Other pending operands. -/
theorem Fits.pending (hf : Fits e regs m V ℓ) {xs : List Entry} {Y : List Item}
    (hY : List.Forall₂ (Entry.Means e regs) xs Y) :
    Fits { e with operands := xs } regs m V
      { ℓ with operands := Y ++ V.operands.reverse.map .object } :=
  have ho : Onward e { e with operands := xs } := Onward.of_builder rfl
  have hs := SameBelow.refl e.types.size regs
  { hf with
    primed := hf.primed.onward ho hs
    operands := ⟨Y, hY, rfl⟩
    slots := fun i s p l h₁ h₂ h₃ => (hf.slots i s p l h₁ h₂ h₃).kept ho hs }

/-- Code that changes nothing but the heap. -/
theorem Fits.kept (hf : Fits e regs m V ℓ) (hi : Idle e e') (ho : Onward e e')
    (hs : SameBelow e.types.size regs regs') (h : Heap) :
    Fits e' regs' { m with heap := h } V { ℓ with heap := h } := by
  obtain ⟨Y, hY, hops⟩ := hf.operands
  have hfits := hf.withOperands ho hs hi.locals hf.frame (Y := Y)
    (by rw [hi.operands]; exact hY.imp fun _ _ hx => hx.kept ho hs) h
  rwa [← hops] at hfits

/-! ## What a lane owns of a frame -/

theorem Slot.Stands.refs_le {s : Slot} {p : Value} {l : Local} (h : s.Stands e regs p l) :
    p.refs ≤ l.refs := by
  cases hd : s.dirty with
  | false =>
    rw [h.clean hd]
    exact Multiset.le_add_right _ _
  | true =>
    obtain ⟨v, -, rfl⟩ := h.dirty hd
    exact Multiset.le_add_left _ _

theorem sum_le_sum_of_getElem? {L : List Value} {N : List Local} (hlen : N.length = L.length)
    (h : ∀ (i : Nat) (p : Value) (l : Local), L[i]? = some p → N[i]? = some l → p.refs ≤ l.refs) :
    (L.map Value.refs).sum ≤ (N.map Local.refs).sum := by
  induction L generalizing N with
  | nil => exact Multiset.zero_le _
  | cons p L ih =>
    cases N with
    | nil => cases hlen
    | cons l N =>
      rw [List.map_cons, List.map_cons, List.sum_cons, List.sum_cons]
      exact add_le_add (h 0 p l rfl rfl) (ih (Nat.succ.inj hlen) fun i => h (i + 1))

theorem Fits.locals_le (hf : Fits e regs m V ℓ) :
    (V.locals.map Value.refs).sum ≤ (ℓ.locals.map Local.refs).sum := by
  refine sum_le_sum_of_getElem? hf.length fun i p l hp hl => ?_
  have hlt : i < e.locals.size := by
    rw [hf.size]
    exact (List.getElem?_eq_some_iff.1 hp).1
  exact (hf.slots i _ p l (Array.getElem?_eq_getElem hlt) hp hl).refs_le

theorem Fits.operands_le (hf : Fits e regs m V ℓ) :
    (↑V.operands : Multiset Value) ≤ (ℓ.operands.map Item.refs).sum := by
  obtain ⟨Y, -, hops⟩ := hf.operands
  rw [hops, List.map_append, List.sum_append, map_object_refs, Multiset.coe_reverse]
  exact Multiset.le_add_left _ _

theorem Fits.covers (hf : Fits e regs m V ℓ) : ℓ.Covers m.frame := by
  refine ⟨V.locals, V.operands, V.scope, hf.frame.toHolds, ?_⟩
  rw [Lane.refs, hf.scope, add_comm (ℓ.operands.map Item.refs).sum]
  exact add_le_add (add_le_add hf.locals_le hf.operands_le) le_rfl

/-- Nothing is pending: the lane is what the frame shows. -/
theorem Fits.lane_eq (hf : Fits e regs m V ℓ) (hsync : e.Synced) : ℓ = V.lane m.heap := by
  have hops : ℓ.operands = V.operands.reverse.map .object := by
    obtain ⟨Y, hY, hops⟩ := hf.operands
    rw [hsync.operands] at hY
    cases hY
    exact hops
  have hlocals : ℓ.locals = V.locals.map ({ value := · }) := by
    apply List.ext_getElem?
    intro i
    rw [List.getElem?_map]
    cases hp : V.locals[i]? with
    | none =>
      rw [List.getElem?_eq_none_iff] at hp
      exact List.getElem?_eq_none (hf.length ▸ hp)
    | some p =>
      have hlt := (List.getElem?_eq_some_iff.1 hp).1
      have hs := Array.getElem?_eq_getElem (hf.size ▸ hlt : i < e.locals.size)
      have hl := List.getElem?_eq_getElem (hf.length ▸ hlt : i < ℓ.locals.length)
      rw [hl, (hf.slots i _ p _ hs hp hl).clean (hsync.clean _ (Array.mem_of_getElem? hs))]
      rfl
  obtain ⟨setting, heap, operands, locals, scope⟩ := ℓ
  obtain rfl : setting = V.toSetting := hf.setting
  obtain rfl : heap = m.heap := hf.heap
  obtain rfl : scope = V.scope := hf.scope
  obtain rfl := hops
  obtain rfl := hlocals
  rfl

/-! ## Realizing actions on lanes -/

/-- How an invocation stands whose code has failed. Under the condition `c` everything is in its place if
something was thrown. -/
structure Broken (c : Prop) (s : σ) (ε : Fault) (m : Machine σ) (ℓ : Lane) : Prop where
  host : m.host = s
  heap : m.heap = ℓ.heap
  covers : ℓ.Covers m.frame
  whole : c → ∀ v, ε = .thrown v → ∃ V, m.frame.Shows V ∧ ℓ = V.lane m.heap

def Realizes (host : Host σ) (c : Prop) (e : Emitter) (regs : IR.Registers) (x : Emit α) (y : LaneM β)
    (T : α → β → Emitter → IR.Registers → Prop) : Prop :=
  ∀ (m : Machine σ) V ℓ, Fits e regs m V ℓ →
    Staged host x e regs m (fun ε m' => ∃ ℓ', y ℓ = .error ε ℓ' ∧ Broken c m.host ε m' ℓ')
      fun a e' regs' m' => m'.host = m.host ∧
        ∃ b ℓ' V', y ℓ = .ok b ℓ' ∧ T a b e' regs' ∧ Fits e' regs' m' V' ℓ'

variable {x : Emit α} {y : LaneM β} {f : α → Emit γ} {g : β → LaneM δ}
  {T T' : α → β → Emitter → IR.Registers → Prop} {U : γ → δ → Emitter → IR.Registers → Prop}

theorem Realizes.imp [Forward x] (h : Realizes host c e regs x y T)
    (hT : ∀ a b e' regs', Onward e e' → SameBelow e.types.size regs regs' → T a b e' regs' →
      T' a b e' regs') : Realizes host c e regs x y T' := fun m V ℓ hf =>
  (h m V ℓ hf).mono (fun _ _ he => he) fun _ _ _ _ ho hs ⟨hhost, b, ℓ', V', hy, ht, hf'⟩ =>
    ⟨hhost, b, ℓ', V', hy, hT _ _ _ _ ho hs ht, hf'⟩

/-- What is known of the emitter besides. -/
theorem Realizes.static (h : Realizes host c e regs x y T) {S : α → Emitter → Prop}
    (hs : ∀ a e', x e = .ok a e' → S a e') :
    Realizes host c e regs x y fun a b e' regs' => T a b e' regs' ∧ S a e' :=
  fun m V ℓ hf a e' hx hsize => (h m V ℓ hf a e' hx hsize).imp
    fun _ _ ⟨hsame, hhost, b, ℓ', V', hy, ht, hf'⟩ =>
      ⟨hsame, hhost, b, ℓ', V', hy, ⟨ht, hs a e' hx⟩, hf'⟩

theorem Realizes.bind [Forward x] [∀ a, Forward (f a)] (hx : Realizes host c e regs x y T)
    (hf : ∀ a b e₁ regs₁, Onward e e₁ → SameBelow e.types.size regs regs₁ → T a b e₁ regs₁ →
      Realizes host c e₁ regs₁ (f a) (g b) U) : Realizes host c e regs (x >>= f) (y >>= g) U := by
  intro m V ℓ hfits
  refine Staged.bind ((hx m V ℓ hfits).mono ?_ fun _ _ _ _ _ _ h => h) ?_
  · rintro ε m' ⟨ℓ', hy, hb⟩
    exact ⟨ℓ', bind_of_error hy, hb⟩
  · rintro a e₁ regs₁ m₁ ho hs ⟨hhost, b, ℓ₁, V₁, hy, ht, hfits₁⟩
    refine (hf a b e₁ regs₁ ho hs ht m₁ V₁ ℓ₁ hfits₁).mono ?_ ?_
    · rintro ε m' ⟨ℓ', hg, hb⟩
      exact ⟨ℓ', by rw [bind_of_ok hy, hg], { hb with host := hb.host.trans hhost }⟩
    · rintro a' e₂ regs₂ m₂ - - ⟨hhost₂, b', ℓ₂, V₂, hg, hu, hfits₂⟩
      exact ⟨hhost₂.trans hhost, b', ℓ₂, V₂, by rw [bind_of_ok hy, hg], hu, hfits₂⟩

theorem Realizes.pure {a : α} {b : β} (h : T a b e regs) :
    Realizes host c e regs (pure a) (pure b : LaneM β) T :=
  fun _ V ℓ hf => .pure ⟨rfl, b, ℓ, V, rfl, h, hf⟩

/-- The parameters are in their registers. -/
theorem Realizes.of_primed (h : Primed e regs → Realizes host c e regs x y T) :
    Realizes host c e regs x y T := fun m V ℓ hf => h hf.primed m V ℓ hf

/-- The action on the lane is looked at in another form. -/
theorem Realizes.congr {y' : LaneM β} (h : Realizes host c e regs x y T) (hy : y = y') :
    Realizes host c e regs x y' T := hy ▸ h

/-- An action that emits nothing. -/
theorem Realizes.silent (h : ∀ (m : Machine σ) V ℓ, Fits e regs m V ℓ → ∀ a e', x e = .ok a e' →
    e'.builder = e.builder ∧ ∃ b ℓ', y ℓ = .ok b ℓ' ∧ T a b e' regs ∧ Fits e' regs m V ℓ') :
    Realizes host c e regs x y T := fun m V ℓ hf =>
  .silent fun a e' hx => by
    obtain ⟨hb, b, ℓ', hy, ht, hf'⟩ := h m V ℓ hf a e' hx
    exact ⟨hb, rfl, b, ℓ', V, hy, ht, hf'⟩

/-- The value of a register as an operand. -/
theorem realizes_object {x : Emit ValueId} {y : LaneM Value} [Forward x]
    (h : Realizes host c e regs x y fun v w e' regs' => Idle e e' ∧ Holding .value v w e' regs') :
    Realizes host c e regs (do pure (Entry.object (← x))) (Item.object <$> y) fun z w e' regs' =>
      Idle e e' ∧ z.Means e' regs' w := by
  rw [map_eq_pure_bind]
  exact h.bind fun v w e₁ regs₁ _ _ hv => .pure ⟨hv.1, means_object_of_holding hv.2⟩

/-- Code that acts on the heap only. -/
theorem realizes_reading [Forward x] {act : Act σ β} {z : Lane → HeapM β}
    (h : Performs host e regs x act T)
    (hact : ∀ (m : Machine σ) V ℓ, Fits e regs m V ℓ → act m = onHeap (z ℓ) m)
    (hc : c → e.Synced ∨ ∀ ℓ, Nothrow (z ℓ)) :
    Realizes host c e regs x (Lane.reading z) fun a b e' regs' => Idle e e' ∧ T a b e' regs' := by
  intro m V ℓ hf
  have hrun := hact m V ℓ hf
  refine (h m).mono ?_ ?_
  · intro ε m' herr
    rw [hrun] at herr
    obtain ⟨heap, frame, s⟩ := m
    obtain rfl : ℓ.heap = heap := hf.heap
    simp only [onHeap] at herr
    split at herr
    · cases herr
    · rename_i ε' h' hz
      cases herr
      refine ⟨{ ℓ with heap := h' }, by simp only [Lane.reading, hz], rfl, rfl, hf.covers,
        fun hc' v hv => ?_⟩
      rcases hc hc' with hsync | hthrow
      · refine ⟨V, hf.frame, ?_⟩
        rw [hf.lane_eq hsync]
        rfl
      · subst hv
        exact absurd hz (hthrow ℓ _ v h')
  · rintro a e' regs' m' ho hs ⟨hi, b, hok, ht⟩
    rw [hrun] at hok
    obtain ⟨heap, frame, s⟩ := m
    obtain rfl : ℓ.heap = heap := hf.heap
    simp only [onHeap] at hok
    split at hok
    · rename_i b' h' hz
      cases hok
      exact ⟨rfl, b, { ℓ with heap := h' }, V, by simp only [Lane.reading, hz], ⟨hi, ht⟩,
        hf.kept hi ho hs h'⟩
    · cases hok

theorem realizes_onHeap [Forward x] {z : HeapM β} (h : Performs host e regs x (onHeap z) T)
    (hc : c → e.Synced ∨ Nothrow z) :
    Realizes host c e regs x (Lane.onHeap z) fun a b e' regs' => Idle e e' ∧ T a b e' regs' :=
  realizes_reading h (fun _ _ _ _ => rfl) fun hc' => (hc hc').imp id fun hz _ => hz

/-! ## Single values -/

theorem performs_effectOf (name : String) (r : Effect) {x : Entry} {v : Value}
    (hx : x.Means e regs (.object v)) :
    Performs host e regs (Emit.callHelper (.ofRoutine name (.effect r)) [x.value]) (onHeap (r.run v))
      fun _ _ _ _ => True := by
  rw [← hx.2.2]
  exact performs_effect name (r := .effect r) rfl rfl rfl

theorem performs_release {x : Entry} {y : Item} (hx : x.Means e regs y) :
    Performs host e regs (Emit.release x) (onHeap y.release) fun _ _ _ _ => True := by
  unfold Emit.release
  cases y with
  | int n =>
    have ho : x.owns = false := by simp [Entry.owns, hx.1]
    simp only [ho]
    exact .pure trivial
  | object v =>
    have ho : x.owns = true := by simp [Entry.owns, hx.1]
    simp only [ho, if_true]
    exact Performs.congr (Performs.bind (performs_effectOf _ .release hx)
      fun _ _ _ _ _ _ h => Performs.pure (c := ()) h) (bind_pure _)

theorem performs_retain {x : Entry} {y : Item} (hx : x.Means e regs y) :
    Performs host e regs (Emit.retain x) (onHeap y.retain) fun _ _ _ _ => True := by
  unfold Emit.retain
  cases y with
  | int n =>
    have ho : x.owns = false := by simp [Entry.owns, hx.1]
    simp only [ho]
    exact .pure trivial
  | object v =>
    have ho : x.owns = true := by simp [Entry.owns, hx.1]
    simp only [ho, if_true]
    exact Performs.congr (Performs.bind (performs_effectOf _ .retain hx)
      fun _ _ _ _ _ _ h => Performs.pure (c := ()) h) (bind_pure _)

theorem performs_box (hp : Primed e regs) {x : Entry} {y : Item} (hx : x.Means e regs y) :
    Performs host e regs (Emit.box x) (onHeap y.box) fun z v e' regs' =>
      z.Means e' regs' (.object v) := by
  unfold Emit.box
  cases y with
  | object v =>
    rw [hx.1]
    exact .pure hx
  | int n =>
    have hperf : Performs host e regs (Emit.callHelper Registry.boxInt [x.value])
        (onHeap (newInt (regs.at x.value).toInt32)) (Holding .value) :=
      performs_call hp _ (r := .box) rfl rfl (by decide)
    rw [hx.1]
    rw [hx.2.2] at hperf
    exact Performs.congr (Performs.bind hperf
      fun _ _ _ _ _ _ h => Performs.pure (means_object_of_holding h)) (bind_pure _)

theorem realizes_release {x : Entry} {y : Item} (hx : x.Means e regs y) :
    Realizes host c e regs (Emit.release x) (Lane.onHeap y.release) fun _ _ e' _ => Idle e e' :=
  (realizes_onHeap (performs_release hx) fun _ => .inr y.nothrow_release).imp
    fun _ _ _ _ _ _ h => h.1

theorem realizes_retain {x : Entry} {y : Item} (hx : x.Means e regs y) :
    Realizes host c e regs (Emit.retain x) (Lane.onHeap y.retain) fun _ _ e' _ => Idle e e' :=
  (realizes_onHeap (performs_retain hx) fun _ => .inr y.nothrow_retain).imp
    fun _ _ _ _ _ _ h => h.1

theorem realizes_box (hp : Primed e regs) {x : Entry} {y : Item} (hx : x.Means e regs y) :
    Realizes host c e regs (Emit.box x) (Lane.onHeap y.box) fun z v e' regs' =>
      Idle e e' ∧ z.Means e' regs' (.object v) :=
  realizes_onHeap (performs_box hp hx) fun _ => .inr y.nothrow_box

/-! ## Operands -/

theorem realizes_pop : Realizes host c e regs Emit.pop Lane.pop fun x y e' regs' =>
    x.Means e' regs' y ∧ e'.locals = e.locals ∧ (e.Synced → e'.Synced) := by
  rintro ⟨heap, frame, s⟩ V ℓ hf
  obtain rfl : ℓ.heap = heap := hf.heap
  obtain ⟨Y, hY, hops⟩ := hf.operands
  unfold Emit.pop
  refine Staged.get ?_
  cases hxs : e.operands with
  | cons x rest =>
    rw [hxs] at hY
    cases hY with
    | cons hx hrest =>
      refine Staged.silent fun a e' hrun => ?_
      cases hrun
      refine ⟨rfl, rfl, _, _, V, Lane.pop_cons hops, ⟨hx, rfl, fun hsync => ?_⟩, ?_⟩
      · rw [hsync.operands] at hxs
        cases hxs
      · exact hf.pending hrest
  | nil =>
    rw [hxs] at hY
    cases hY
    obtain hO | ⟨O, v, hO⟩ := List.eq_nil_or_concat V.operands
    · refine Staged.bind (Q := fun _ _ _ _ => False) ((performs_popReal hf.primed _).mono ?_ ?_)
        fun _ _ _ _ _ _ h => h.elim
      · intro ε m' herr
        obtain ⟨f', hpop, hholds⟩ := popReal_error (h := ℓ.heap) (s := s) hf.frame hO
        rw [hpop] at herr
        cases herr
        refine ⟨ℓ, Lane.pop_nil (by simp [hops, hO]), rfl, rfl, ⟨_, _, _, hholds, ?_⟩,
          fun _ _ h => nomatch h⟩
        rw [Lane.refs, hf.scope, Multiset.coe_nil, add_zero]
        refine add_le_add ?_ le_rfl
        exact le_trans hf.locals_le (Multiset.le_add_left _ _)
      · rintro a e' regs' m' - - ⟨-, v, hok, -⟩
        obtain ⟨f', hpop, -⟩ := popReal_error (h := ℓ.heap) (s := s) hf.frame hO
        rw [hpop] at hok
        cases hok
    · rw [List.concat_eq_append] at hO
      obtain ⟨f', hpop, hshows⟩ := popReal_ok (h := ℓ.heap) (s := s) hf.frame hO
      refine Staged.bind ((performs_popReal hf.primed _).mono ?_ fun _ _ _ _ _ _ h => h) ?_
      · intro ε m' herr
        rw [hpop] at herr
        cases herr
      · rintro i e₁ regs₁ m₁ ho hs ⟨hi, w, hok, hhold⟩
        rw [hpop] at hok
        cases hok
        refine Staged.pure ⟨rfl, .object v, _, _, Lane.pop_cons (by simp [hops, hO]),
          ⟨means_object_of_holding hhold, hi.locals, fun hsync => ?_⟩,
          hf.withOperands ho hs hi.locals hshows (Y := []) (by rw [hi.operands, hxs]; exact .nil) _⟩
        exact ⟨hi.operands.trans hxs, fun t ht => hsync.clean t (by rwa [hi.locals] at ht)⟩

/-- A new reference to the topmost operand. -/
theorem realizes_peek :
    Realizes host c e regs (do
      let x ← Emit.peek
      Emit.retain x
      pure x) Lane.shareTop fun x y e' regs' => x.Means e' regs' y ∧ Idle e e' := by
  rintro ⟨heap, frame, s⟩ V ℓ hf
  obtain rfl : ℓ.heap = heap := hf.heap
  obtain ⟨Y, hY, hops⟩ := hf.operands
  -- Whatever was found is a copy of the operand that the lane has on top.
  have hshare {e₁ : Emitter} {regs₁ : IR.Registers} {x : Entry} {y : Item} {rest : List Item}
      (hi : Idle e e₁) (ho : Onward e e₁) (hs : SameBelow e.types.size regs regs₁)
      (htop : ℓ.operands = y :: rest) (hx : x.Means e₁ regs₁ y) :
      Staged host (do Emit.retain x; pure x) e₁ regs₁ ⟨ℓ.heap, frame, s⟩
        (fun ε m' => ∃ ℓ', Lane.shareTop ℓ = .error ε ℓ' ∧ Broken c s ε m' ℓ')
        fun x e' regs' m' => m'.host = s ∧ ∃ y ℓ' V', Lane.shareTop ℓ = .ok y ℓ' ∧
          (x.Means e' regs' y ∧ Idle e e') ∧ Fits e' regs' m' V' ℓ' := by
    rw [Lane.shareTop_cons htop]
    exact (Realizes.bind (realizes_retain hx) fun _ _ e₂ regs₂ ho₂ hs₂ hi₂ =>
      Realizes.pure ⟨hx.kept ho₂ hs₂, hi.trans hi₂⟩) _ V ℓ (hf.kept hi ho hs ℓ.heap)
  unfold Emit.peek
  rw [bind_assoc]
  refine Staged.get ?_
  cases hxs : e.operands with
  | cons x rest =>
    rw [hxs] at hY
    cases hY with
    | cons hx hrest => exact hshare (Idle.refl e) (Onward.refl e) (SameBelow.refl _ regs) hops hx
  | nil =>
    rw [hxs] at hY
    cases hY
    simp only [bind_assoc, pure_bind]
    obtain hO | ⟨O, v, hO⟩ := List.eq_nil_or_concat V.operands
    · have hpeek := peekReal_error (h := ℓ.heap) (s := s) hf.frame hO
      refine Staged.bind (Q := fun _ _ _ _ => False) ((performs_peekReal hf.primed _).mono ?_ ?_)
        fun _ _ _ _ _ _ h => h.elim
      · intro ε m' herr
        rw [hpeek] at herr
        cases herr
        exact ⟨ℓ, Lane.shareTop_nil (by simp [hops, hO]), rfl, rfl, hf.covers, fun _ _ h => nomatch h⟩
      · rintro a e' regs' m' - - ⟨-, v, hok, -⟩
        rw [hpeek] at hok
        cases hok
    · rw [List.concat_eq_append] at hO
      have hpeek := peekReal_ok (h := ℓ.heap) (s := s) hf.frame hO
      refine Staged.bind ((performs_peekReal hf.primed _).mono ?_ fun _ _ _ _ _ _ h => h) ?_
      · intro ε m' herr
        rw [hpeek] at herr
        cases herr
      · rintro i e₁ regs₁ m₁ ho hs ⟨hi, w, hok, hhold⟩
        rw [hpeek] at hok
        cases hok
        have htop : ℓ.operands = .object v :: O.reverse.map .object := by simp [hops, hO]
        exact hshare hi ho hs htop (means_object_of_holding hhold)

theorem realizes_push {x : Entry} {y : Item} (hx : x.Means e regs y) :
    Realizes host c e regs (Emit.push x) (Lane.push .lazy y) fun _ _ e' _ =>
      e'.locals = e.locals := by
  have hnone : x.isNone = false := by cases y <;> simp [Entry.isNone, hx.1]
  refine .silent fun m V ℓ hf a e' hrun => ?_
  obtain ⟨heap, frame, s⟩ := m
  obtain rfl : ℓ.heap = heap := hf.heap
  simp only [Emit.push, hnone] at hrun
  cases hrun
  obtain ⟨Y, hY, hops⟩ := hf.operands
  refine ⟨rfl, (), { ℓ with operands := y :: ℓ.operands }, by simp [Lane.push], rfl, ?_⟩
  rw [hops]
  exact hf.pending (.cons hx hY)

/-! ## Locals -/

theorem slot_eq_ok {i : Nat} {s : Slot} (h : Emit.slot i e = .ok s e') :
    e' = e ∧ e.locals[i]? = some s := by
  have hlt : i < e.locals.size := by
    refine Nat.lt_of_not_le fun hle => ?_
    simp only [Emit.slot, get_bind,
      Int.not_lt.2 (Int.natCast_nonneg i), if_false, Int.toNat_natCast, Array.getElem?_eq_none hle] at h
    cases h
  exact (slot_spec (E := fun _ _ => True) hlt).ok h

theorem realizes_slot {i : Nat} {f : Slot → Emit α}
    (h : ∀ s, e.locals[i]? = some s → Realizes host c e regs (f s) y T) :
    Realizes host c e regs (Emit.slot i >>= f) y T := by
  intro m V ℓ hf a e' hx hsize
  obtain ⟨s, e₁, hslot, hrest⟩ := bind_eq_ok hx
  obtain ⟨rfl, hs⟩ := slot_eq_ok hslot
  exact h s hs m V ℓ hf a e' hrest hsize

/-- Code that changes a local. -/
theorem Fits.withLocal (hf : Fits e regs m V ℓ) (hi : Idle e e') (ho : Onward e e')
    (hs : SameBelow e.types.size regs regs') {f : Frame} {i : Nat} {s : Slot} {p : Value} {l : Local}
    (hlt : i < 2 ^ 31) (hframe : f.Shows { V with locals := V.locals.set i p })
    (hstands : s.Stands e' regs' p l) (h : Heap) :
    Fits { e' with locals := e'.locals.setIfInBounds i s } regs' ⟨h, f, m.host⟩
      { V with locals := V.locals.set i p } { ℓ with heap := h, locals := ℓ.locals.set i l } := by
  have hkept := hf.kept hi ho hs h
  have ho' : Onward e' { e' with locals := e'.locals.setIfInBounds i s } := Onward.of_builder rfl
  have hs' := SameBelow.refl e'.types.size regs'
  refine { hkept with
    primed := ?_, frame := hframe, operands := ?_, size := ?_, length := ?_, slots := ?_, near := ?_ }
  · exact hkept.primed.onward ho' hs'
  · obtain ⟨Y, hY, hops⟩ := hkept.operands
    exact ⟨Y, hY.imp fun _ _ hx => hx.kept ho' hs', hops⟩
  · simpa using hkept.size
  · simpa using hkept.length
  · intro j t q k ht hq hk
    by_cases hj : i = j
    · subst hj
      obtain ⟨-, rfl⟩ : i < e'.locals.size ∧ s = t := by
        simpa [Array.getElem?_setIfInBounds] using ht
      obtain ⟨-, rfl⟩ : i < V.locals.length ∧ p = q := by simpa [List.getElem?_set] using hq
      obtain ⟨-, rfl⟩ : i < ℓ.locals.length ∧ l = k := by simpa [List.getElem?_set] using hk
      exact hstands.kept ho' hs'
    · rw [Array.getElem?_setIfInBounds, if_neg hj] at ht
      rw [List.getElem?_set, if_neg hj] at hq hk
      exact (hkept.slots j t q k ht hq hk).kept ho' hs'
  · intro j t ht hne
    by_cases hj : i = j
    · exact hj ▸ hlt
    · rw [Array.getElem?_setIfInBounds, if_neg hj] at ht
      exact hkept.near j t ht hne

/-- What the slot, the place and the lane say of a local that there is. -/
theorem Fits.local (hf : Fits e regs m V ℓ) {i : Nat} {s : Slot} (hs : e.locals[i]? = some s) :
    ∃ p l, V.locals[i]? = some p ∧ ℓ.locals[i]? = some l ∧ s.Stands e regs p l := by
  have hlt := (Array.getElem?_eq_some_iff.1 hs).1
  have hp := List.getElem?_eq_getElem (hf.size ▸ hlt : i < V.locals.length)
  have hl := List.getElem?_eq_getElem (by rw [hf.length, ← hf.size]; exact hlt : i < ℓ.locals.length)
  exact ⟨_, _, hp, hl, hf.slots i s _ _ hs hp hl⟩

/-- A slot that is not blank holds an object. -/
theorem Slot.Stands.means {s : Slot} {p : Value} {l : Local} (h : s.Stands e regs p l)
    (hn : s.entry.isNone = false) : s.entry.Means e regs (.object l.value) := by
  cases hd : s.dirty with
  | false =>
    rw [h.clean hd]
    exact h.known hd hn
  | true =>
    obtain ⟨v, hv, rfl⟩ := h.dirty hd
    exact hv

/-- The entry of a local, which is loaded if it is not known. -/
def Emit.slotEntry (i : Int) (s : Slot) : Emit Entry :=
  if s.entry.isNone then do
    let v ← loadLocal i
    setSlot i ⟨.object v, false⟩
    pure (.object v)
  else pure s.entry

instance (i : Int) (s : Slot) : Forward (Emit.slotEntry i s) := by
  unfold Emit.slotEntry
  infer_instance

theorem getLocal_eq (i : Int) : Emit.getLocal i = (do
    let s ← Emit.slot i
    let x ← Emit.slotEntry i s
    Emit.retain x
    pure x) := by
  unfold Emit.getLocal
  congr 1
  funext s
  unfold Emit.slotEntry
  split <;> simp only [bind_assoc, pure_bind]

theorem realizes_slotEntry {i : Nat} (hlt : i < 2 ^ 31) {s : Slot} (hs : e.locals[i]? = some s) :
    Realizes host c e regs (Emit.slotEntry i s) (Lane.valueOf i) fun x v e' regs' =>
      x.Means e' regs' (.object v) ∧ e'.operands = e.operands ∧ (e.Clean → e'.Clean) := by
  unfold Emit.slotEntry
  rintro ⟨heap, frame, state⟩ V ℓ hf
  obtain rfl : ℓ.heap = heap := hf.heap
  obtain ⟨p, l, hp, hl, hstands⟩ := hf.local hs
  have hvalue : Lane.valueOf i ℓ = .ok l.value ℓ := by simp only [Lane.valueOf, hl]
  cases hn : s.entry.isNone with
  | false => exact Staged.pure ⟨rfl, _, ℓ, V, hvalue, ⟨hstands.means hn, rfl, id⟩, hf⟩
  | true =>
    have hclean : s.dirty = false := by
      refine Bool.eq_false_iff.2 fun hd => ?_
      obtain ⟨v, hv, -⟩ := hstands.dirty hd
      simp [Entry.isNone, hv.1] at hn
    have hl' := hstands.clean hclean
    have hread := readSlot_ok (a := fun _ => some .first) (h := ℓ.heap) (s := state)
      (hf.frame.slot?_local hp (by omega))
    refine Staged.bind ((performs_loadLocal hf.primed hlt _).mono ?_ fun _ _ _ _ _ _ h => h) ?_
    · intro ε m' herr
      rw [hread] at herr
      cases herr
    · rintro v e₁ regs₁ m₁ ho hsame ⟨hi, w, hok, hhold⟩
      rw [hread] at hok
      cases hok
      refine Staged.silent fun x e₂ hrun => ?_
      cases hrun
      have hx := means_object_of_holding hhold
      have hfits := hf.withLocal hi ho hsame hlt (s := ⟨.object v, false⟩) (p := p) (l := l)
        (by rw [Lane.set_of_getElem? hp]; exact hf.frame) ⟨Bool.noConfusion, fun _ => hl', fun _ _ => hx⟩ ℓ.heap
      rw [Lane.set_of_getElem? hp, Lane.set_of_getElem? hl] at hfits
      refine ⟨rfl, rfl, _, ℓ, V, hvalue, ⟨?_, hi.operands, ?_⟩, hfits⟩
      · rw [hl']
        exact hx.kept (Onward.of_builder rfl) (SameBelow.refl _ _)
      · intro hc t ht
        rcases Array.mem_or_eq_of_mem_setIfInBounds ht with ht | rfl
        · exact hc t (by rwa [hi.locals] at ht)
        · rfl

theorem realizes_getLocal {i : Nat} (hlt : i < 2 ^ 31) :
    Realizes host c e regs (Emit.getLocal i) (Lane.share i) fun x v e' regs' =>
      x.Means e' regs' (.object v) ∧ e'.operands = e.operands ∧ (e.Clean → e'.Clean) := by
  rw [getLocal_eq, Lane.share_eq]
  refine realizes_slot fun s hs => ?_
  refine Realizes.bind (realizes_slotEntry hlt hs) fun x v e₁ regs₁ _ _ ⟨hx, hops, hclean⟩ => ?_
  refine Realizes.bind (realizes_retain hx) fun _ _ e₂ regs₂ ho hsame hi => ?_
  refine Realizes.pure ⟨hx.kept ho hsame, hi.operands.trans hops, fun hc t ht => ?_⟩
  rw [hi.locals] at ht
  exact hclean hc t ht

/-- Code that changes a local and gives up a value. -/
theorem staged_setSlot [Forward x] {act : Act σ Unit} {T : α → Unit → Emitter → IR.Registers → Prop}
    {z : HeapM Unit} {frame f : Frame} {s : σ} {i : Nat} {t : Slot} {q : Value} {l : Local}
    (hf : Fits e regs (⟨ℓ.heap, frame, s⟩ : Machine σ) V ℓ) (hx : Performs host e regs x act T)
    (hact : act ⟨ℓ.heap, frame, s⟩ = onHeap z ⟨ℓ.heap, f, s⟩) (hlt : i < 2 ^ 31)
    (hframe : f.Shows { V with locals := V.locals.set i q })
    (hstands : ∀ e' regs', Onward e e' → SameBelow e.types.size regs regs' → t.Stands e' regs' q l)
    (hz : Nothrow z) :
    Staged host (x >>= fun _ => Emit.setSlot i t) e regs ⟨ℓ.heap, frame, s⟩
      (fun ε m' => ∃ ℓ', Lane.onHeap z { ℓ with locals := ℓ.locals.set i l } = .error ε ℓ' ∧
        Broken c s ε m' ℓ')
      fun _ e' regs' m' => m'.host = s ∧
        ∃ b ℓ' V', Lane.onHeap z { ℓ with locals := ℓ.locals.set i l } = .ok b ℓ' ∧
          e'.operands = e.operands ∧ Fits e' regs' m' V' ℓ' := by
  refine Staged.bind ((hx _).mono ?_ fun _ _ _ _ _ _ h => h) ?_
  · intro ε m' herr
    rw [hact] at herr
    simp only [onHeap] at herr
    split at herr
    · cases herr
    · rename_i ε' h' hrun
      cases herr
      have hfits := hf.withLocal (Idle.refl e) (Onward.refl e) (SameBelow.refl _ regs) hlt hframe
        (hstands e regs (Onward.refl e) (SameBelow.refl _ regs)) h'
      refine ⟨_, by simp only [Lane.onHeap, Lane.reading, hrun], rfl, rfl, hfits.covers, fun _ u hu => ?_⟩
      subst hu
      exact absurd hrun (hz _ u h')
  · rintro _ e₁ regs₁ m₁ ho hsame ⟨hi, u, hok, -⟩
    rw [hact] at hok
    simp only [onHeap] at hok
    split at hok
    · rename_i u' h' hrun
      cases hok
      refine Staged.silent fun _ e₂ hset => ?_
      cases hset
      have hfits := hf.withLocal hi ho hsame hlt hframe (hstands e₁ regs₁ ho hsame) h'
      exact ⟨rfl, rfl, u, _, _, by simp only [Lane.onHeap, Lane.reading, hrun], hi.operands, hfits⟩
    · cases hok

/-- How the new value of a local is stored. -/
def Emitter.storing (e : Emitter) (i : Nat) (x : Entry) : Storing :=
  if (e.locals[i]?).map Slot.entry = some x then .unlessSame else .later

theorem storing_ne_now (e : Emitter) (i : Nat) (x : Entry) : e.storing i x ≠ .now := by
  unfold Emitter.storing
  split <;> decide

/-- The pending value of a local is replaced. -/
theorem Lane.setLocal_pending {how : Storing} (hhow : how ≠ .now) {i : Nat} {v w p : Value}
    (hl : ℓ.locals[i]? = some ⟨w, some p⟩) :
    Lane.setLocal how i v ℓ =
      Lane.onHeap (release w) { ℓ with locals := ℓ.locals.set i ⟨v, some p⟩ } := by
  simp only [Lane.setLocal, hl, Local.mk.injEq, reduceCtorEq, and_false, if_false, if_neg hhow]

theorem realizes_setLocal {i : Nat} (hlt : i < 2 ^ 31) {x : Entry} {v : Value}
    (hx : x.Means e regs (.object v)) :
    Realizes host c e regs (Emit.setLocal i x) (Lane.setLocal (e.storing i x) i v)
      fun _ _ e' _ => e'.operands = e.operands := by
  unfold Emit.setLocal
  simp only [hx.1, ne_eq, not_true, if_false]
  refine realizes_slot fun s hs => ?_
  rintro ⟨heap, frame, state⟩ V ℓ hf
  obtain rfl : ℓ.heap = heap := hf.heap
  obtain ⟨p, l, hp, hl, hstands⟩ := hf.local hs
  have hframe : frame.Shows { V with locals := V.locals.set i p } := by
    rw [Lane.set_of_getElem? hp]
    exact hf.frame
  have hnew (e' : Emitter) (regs' : IR.Registers) (ho : Onward e e')
      (hsame : SameBelow e.types.size regs regs') : Slot.Stands e' regs' ⟨x, true⟩ p ⟨v, some p⟩ :=
    ⟨fun _ => ⟨v, hx.kept ho hsame, rfl⟩, nofun, nofun⟩
  cases hd : s.dirty with
  | true =>
    obtain ⟨w, hw, rfl⟩ := hstands.dirty hd
    rw [Lane.setLocal_pending (storing_ne_now e i x) (v := v) hl]
    exact staged_setSlot hf (performs_release hw) rfl hlt hframe hnew (nothrow_releaseAll [w])
  | false =>
    have hl' := hstands.clean hd
    by_cases hsame : s.entry = x
    · have hvalue : v = p := by
        have hn : s.entry.isNone = false := by simp [Entry.isNone, hsame, hx.1]
        have hknown := hstands.known hd hn
        rw [hsame] at hknown
        exact hx.2.2.symm.trans hknown.2.2
      have hset : Lane.setLocal (e.storing i x) i v ℓ = Lane.onHeap (Item.object v).release ℓ := by
        have hhow : e.storing i x = .unlessSame := by simp [Emitter.storing, hs, hsame]
        rw [hhow]
        simp only [Lane.setLocal, hl, hl', hvalue, and_self, if_true]
        rfl
      rw [hset]
      simp only [hsame, if_true]
      exact ((realizes_release hx).imp fun _ _ _ _ _ _ hi => hi.operands) _ V ℓ hf
    · have hset : Lane.setLocal (e.storing i x) i v ℓ =
          .ok () { ℓ with locals := ℓ.locals.set i ⟨v, some p⟩ } := by
        have hhow : e.storing i x = .later := by simp [Emitter.storing, hs, hsame]
        rw [hhow]
        simp [Lane.setLocal, hl, hl']
      rw [hset]
      simp only [hsame, if_false]
      refine Staged.silent fun _ e₂ hrun => ?_
      cases hrun
      have hfits := hf.withLocal (Idle.refl e) (Onward.refl e) (SameBelow.refl _ regs) hlt hframe
        (hnew e regs (Onward.refl e) (SameBelow.refl _ regs)) ℓ.heap
      rw [Lane.set_of_getElem? hp] at hfits
      exact ⟨rfl, rfl, (), _, V, rfl, rfl, hfits⟩

/-! ## Storing what is pending -/

theorem performs_pushEntries (hp : Primed e regs) {xs : List Entry} {Y : List Item}
    (hY : List.Forall₂ (Entry.Means e regs) xs Y) :
    Performs host e regs (Emit.pushEntries xs) (pushItems Y) fun _ _ _ _ => True := by
  induction xs generalizing e regs Y with
  | nil =>
    cases hY
    exact .pure trivial
  | cons x xs ih =>
    cases hY with
    | cons hx hxs =>
      refine Performs.bind (performs_box hp hx) fun z v e₁ regs₁ ho hs hz => ?_
      have hp₁ := hp.onward ho hs
      refine Performs.bind (Performs.congr (performs_pushReal hp₁ hz.2.1) (by rw [hz.2.2]))
        fun _ _ e₂ regs₂ ho₂ hs₂ _ => ?_
      exact ih (hp₁.onward ho₂ hs₂) (hxs.imp fun _ _ h => (h.kept ho hs).kept ho₂ hs₂)

theorem realizes_sync : Realizes host c e regs Emit.sync Lane.sync fun _ _ e' _ =>
    e'.operands = [] ∧ e'.locals = e.locals := by
  rintro ⟨heap, frame, s⟩ V ℓ hf
  obtain rfl : ℓ.heap = heap := hf.heap
  obtain ⟨Y, hY, hops⟩ := hf.operands
  have hcap : ℓ.capacity = V.capacity := by rw [hf.setting]
  -- The operands on the real stack stay where they are.
  have hsync : Lane.sync ℓ = Lane.storeOperands Y.reverse (V.operands.reverse.map .object) ℓ := by
    have hroom : V.operands.length + ([] : List Item).length ≤ ℓ.capacity := by
      rw [hcap]
      exact hf.frame.length_le
    have hskip := Lane.storeOperands_objects (A := V.operands) (R := Y.reverse) (T := []) (ℓ := ℓ)
      (by simp [hops]) hroom
    rw [Lane.sync_eq, hops]
    simpa using hskip
  have hperf : Performs host e regs (Emit.pushEntries e.operands.reverse) (pushItems Y.reverse)
      fun _ _ _ _ => True := performs_pushEntries hf.primed (List.forall₂_reverse_iff.2 hY)
  have hforward := Forward.modify (f := fun s : Emitter => { s with operands := [] }) fun _ => rfl
  rw [hsync]
  refine Staged.get (Staged.bind ((hperf _).mono ?_ fun _ _ _ _ _ _ h => h) ?_)
  · intro ε m' herr
    obtain ⟨h, f', O, hok, -⟩ | ⟨h, f', O, Z, herr', hf', hlane⟩ :=
      pushItems_storeOperands (s := s) Y.reverse hf.frame hcap (by simpa using hops)
    · rw [hok] at herr
      cases herr
    · rw [herr'] at herr
      cases herr
      refine ⟨_, hlane, rfl, rfl, ⟨_, _, _, hf'.toHolds, ?_⟩, fun _ _ h => nomatch h⟩
      rw [Lane.refs, List.map_append, List.sum_append, map_object_refs, Multiset.coe_reverse, hf.scope,
        add_comm _ (ℓ.locals.map Local.refs).sum]
      exact add_le_add (add_le_add hf.locals_le (Multiset.le_add_left _ _)) le_rfl
  · rintro _ e₁ regs₁ m₁ ho hs ⟨hi, _, hok, -⟩
    obtain ⟨h, f', O, hok', hf', hlane⟩ | ⟨h, f', O, Z, herr, -⟩ :=
      pushItems_storeOperands (s := s) Y.reverse hf.frame hcap (by simpa using hops)
    · rw [hok'] at hok
      cases hok
      refine Staged.silent fun _ e₂ hrun => ?_
      cases hrun
      have hfits := (hf.withOperands ho hs hi.locals hf' (Y := Y)
        (by rw [hi.operands]; exact hY.imp fun _ _ h => h.kept ho hs) h).pending (Y := []) .nil
      exact ⟨rfl, rfl, (), _, _, hlane, ⟨rfl, hi.locals⟩, hfits⟩
    · rw [herr] at hok
      cases hok

/-- Moves a dirty local to its place. -/
def Emit.storeSlot (i : Nat) (s : Slot) : Emit Unit :=
  if s.dirty then do
    if s.entry.kind ≠ .object then defect (s!"local {i} is " ++ s.entry.kind.name)
    let old ← loadLocal i
    storeLocal i s.entry.value
    let _ ← callHelper Registry.releaseBound [old]
    setSlot i { s with dirty := false }
  else pure ()

instance (i : Nat) (s : Slot) : Forward (Emit.storeSlot i s) := by
  unfold Emit.storeSlot
  infer_instance

theorem syncLocalsFrom_succ (n i : Nat) : Emit.syncLocalsFrom (n + 1) i = (do
    let s ← Emit.slot i
    Emit.storeSlot i s
    Emit.syncLocalsFrom n (i + 1)) := by
  rw [Emit.syncLocalsFrom]
  congr 1
  funext s
  unfold Emit.storeSlot
  split
  · split <;> simp only [bind_assoc]
  · rw [pure_bind]

theorem performs_replaceLocal (hp : Primed e regs) {i : Nat} (hlt : i < 2 ^ 31) {x : Entry} {v : Value}
    (hx : x.Means e regs (.object v)) :
    Performs host e regs (do
      let old ← Emit.loadLocal i
      Emit.storeLocal i x.value
      let _ ← Emit.callHelper Registry.releaseBound [old]) (replaceLocal (fun _ => some .first) i v)
      fun _ _ _ _ => True := by
  refine Performs.bind (performs_loadLocal hp hlt) fun old w e₁ regs₁ ho hs hold => ?_
  have hp₁ := hp.onward ho hs
  have hx₁ := hx.kept ho hs
  refine Performs.bind (Performs.congr (performs_storeLocal hp₁ hlt hx₁.2.1) (by rw [hx₁.2.2]))
    fun _ _ e₂ regs₂ ho₂ hs₂ _ => ?_
  have hold₂ := means_object_of_holding (hold.kept ho₂ hs₂)
  exact Performs.congr (Performs.bind (performs_effectOf _ .releaseBound hold₂)
    fun _ _ _ _ _ _ h => Performs.pure (c := ()) h) (bind_pure _)

theorem realizes_storeSlot {i : Nat} {s : Slot} (hs : e.locals[i]? = some s) :
    Realizes host c e regs (Emit.storeSlot i s) (Lane.storeLocal i) fun _ _ e' _ =>
      e'.operands = e.operands := by
  rintro ⟨heap, frame, state⟩ V ℓ hf
  obtain rfl : ℓ.heap = heap := hf.heap
  obtain ⟨p, l, hp, hl, hstands⟩ := hf.local hs
  unfold Emit.storeSlot
  cases hd : s.dirty with
  | false =>
    have hstore : Lane.storeLocal i ℓ = .ok () ℓ := by
      simp only [Lane.storeLocal, hl, hstands.clean hd]
    rw [hstore]
    exact Staged.pure ⟨rfl, (), ℓ, V, rfl, rfl, hf⟩
  | true =>
    obtain ⟨v, hv, rfl⟩ := hstands.dirty hd
    have hlt : i < 2 ^ 31 := hf.near i s hs fun h => by rw [h] at hd; cases hd
    have hstore : Lane.storeLocal i ℓ =
        Lane.onHeap (releaseBound p) { ℓ with locals := ℓ.locals.set i ⟨v, none⟩ } := by
      simp only [Lane.storeLocal, hl]
    obtain ⟨hact, hframe⟩ := replaceLocal_eq (a := fun _ => some .first) (h := ℓ.heap) (s := state) (v := v)
      hf.frame rfl hp (by omega)
    have hclean (e' : Emitter) (regs' : IR.Registers) (ho : Onward e e')
        (hsame : SameBelow e.types.size regs regs') :
        Slot.Stands e' regs' { s with dirty := false } v ⟨v, none⟩ :=
      ⟨Bool.noConfusion, fun _ => rfl, fun _ _ => hv.kept ho hsame⟩
    rw [hstore]
    have hperf : Performs host e regs _ _ _ := performs_replaceLocal hf.primed hlt hv
    have hstaged := staged_setSlot hf hperf hact hlt hframe hclean (nothrow_releaseBound p) (c := c)
    simp only [if_true, hv.1, ne_eq, not_true, if_false]
    simpa only [bind_assoc, pure_bind] using hstaged

theorem realizes_syncLocalsFrom (n i : Nat) :
    Realizes host c e regs (Emit.syncLocalsFrom n i) (Lane.syncLocalsFrom n i) fun _ _ e' _ =>
      e'.operands = e.operands := by
  induction n generalizing e regs i with
  | zero => exact .pure rfl
  | succ n ih =>
    rw [syncLocalsFrom_succ, Lane.syncLocalsFrom]
    refine realizes_slot fun s hs => ?_
    refine Realizes.bind (realizes_storeSlot hs) fun _ _ e₁ regs₁ _ _ hops => ?_
    exact (ih (i + 1)).imp fun _ _ _ _ _ _ h => h.trans hops

theorem realizes_syncLocals : Realizes host c e regs Emit.syncLocals Lane.syncLocals fun _ _ e' _ =>
    e'.operands = e.operands := by
  intro m V ℓ hf
  have hlen : ℓ.locals.length = e.locals.size := by rw [hf.length, hf.size]
  have hsync : Lane.syncLocals ℓ = Lane.syncLocalsFrom e.locals.size 0 ℓ := by
    rw [← hlen]
    rfl
  rw [hsync]
  exact Staged.get (realizes_syncLocalsFrom e.locals.size 0 m V ℓ hf)

/-- Stores everything. -/
theorem realizes_syncAll (hr : e.Ready) :
    Realizes host c e regs Emit.syncAll (do Lane.sync; Lane.syncLocals) fun _ _ e' _ => e'.Synced := by
  have hall : Realizes host c e regs Emit.syncAll (do Lane.sync; Lane.syncLocals) fun _ _ _ _ => True :=
    Realizes.bind realizes_sync fun _ _ _ _ _ _ _ =>
      realizes_syncLocals.imp fun _ _ _ _ _ _ _ => trivial
  refine (hall.static fun _ e' hrun => ?_).imp fun _ _ _ _ _ _ h => h.2
  exact ((syncAll_spec (E := fun _ _ => True) hr).ok hrun).2

/-! ## Values that are not taken from the stack -/

/-- Code for a number that is known. -/
theorem realizes_const (hp : Primed e regs) (n : Int32) :
    Realizes host c e regs (Emit.const n) (pure ()) fun v _ e' regs' =>
      Idle e e' ∧ Holding .int v n.toInt64 e' regs' := by
  rintro ⟨heap, frame, s⟩ V ℓ hf
  obtain rfl : ℓ.heap = heap := hf.heap
  refine (Performs.of_pure (performs_const hp n) _).mono (fun _ _ herr => by cases herr) ?_
  rintro v e' regs' m' ho hs ⟨hi, d, hok, -, hv⟩
  cases hok
  exact ⟨rfl, (), ℓ, V, rfl, ⟨hi, hv⟩, hf.kept hi ho hs ℓ.heap⟩

theorem realizes_makeInt (hp : Primed e regs) (n : Int32) :
    Realizes host c e regs (do pure (Entry.int (← Emit.const n))) (Lane.makeInt .lazy n)
      fun x y e' regs' => Idle e e' ∧ x.Means e' regs' y := by
  have hmake : Lane.makeInt .lazy n = (do let _ ← (pure () : LaneM Unit); pure (.int n)) := rfl
  rw [hmake]
  exact (realizes_const hp n).bind fun v _ e₁ regs₁ _ _ hv => .pure ⟨hv.1, means_int_of_holding hv.2⟩

theorem realizes_supply (hp : Primed e regs) (name : String) (r : Supply) :
    Realizes host c e regs (Emit.callHelper (.ofRoutine name (.supply r)) [paramFrame]) (Lane.supply r)
      fun v w e' regs' => Idle e e' ∧ Holding .value v w e' regs' := by
  have hperf : Performs host e regs (Emit.callHelper (.ofRoutine name (.supply r)) [paramFrame]) r.run
      (Holding .value) := performs_call hp _ (r := .supply r) rfl rfl nofun
  refine realizes_reading hperf (fun m V ℓ hf => ?_) fun _ => .inr fun ℓ => r.nothrow_make ℓ.scope ℓ.global
  rw [hf.scope, hf.setting]
  exact r.run_eq hf.frame

theorem realizes_constant (hp : Primed e regs) (name : String) (k : Constant) {n : ValueId} {i : Int32}
    (hn : Holding .int n i.toInt64 e regs) :
    Realizes host c e regs (Emit.callHelper (.ofRoutine name (.constant k)) [paramFrame, n])
      (Lane.constant k i) fun v w e' regs' => Idle e e' ∧ Holding .value v w e' regs' := by
  have hindex : (regs.at n).toInt32 = i := by
    rw [hn.2]
    exact Int32.toInt32_toInt64 i
  have hperf : Performs host e regs (Emit.callHelper (.ofRoutine name (.constant k)) [paramFrame, n])
      (k.run (regs.at n).toInt32) (Holding .value) :=
    performs_call hp _ (r := .constant k) rfl rfl nofun
  rw [hindex] at hperf
  refine realizes_reading hperf (fun m V ℓ hf => ?_) fun _ =>
    .inr fun ℓ => k.nothrow_make ℓ.method.constants i
  rw [hf.setting]
  exact k.run_eq hf.frame i

end Compiler

end MethodJit
