import Mathlib.Algebra.Group.Int.Defs
import Mathlib.Algebra.Group.Nat.Defs
import MethodJit.Proofs.Accounting
import MethodJit.Proofs.Outcome
import MethodJit.Routine.Context

/-!
# Frames as lists

`Frame.Shows` describes a frame by the lists of its locals, operands and scopes. The operands are the slots
below the stack index; what the slots above hold does not matter. Each operation on the slots is an
operation on these lists, or leaves the bounds.
-/

namespace MethodJit

variable {σ : Type} {f : Frame} {L O S : List Value} {v : Value} {h : Heap} {s : σ} {i n : Nat}

/-- What is in a frame, as far as it must be given up at the end. -/
structure Frame.Holds (f : Frame) (L O S : List Value) : Prop where
  locals : f.locals = some .first
  stack : f.stack = some .second
  slots : f.firstSlots.toList = L
  operands : f.secondSlots.toList.take f.stackIndex.toNatClampNeg = O
  fits : f.stackIndex.toNatClampNeg ≤ f.secondSlots.size
  scope : f.scope.toList = S
  slotLimit : f.firstSlots.size ≤ Frame.slotLimit
  limit : f.secondSlots.size ≤ Frame.operandLimit

/-- What instructions see of a frame and cannot change, and the number of jumps. -/
structure Setting where
  /-- The number of operands that the frame has slots for. -/
  capacity : Nat
  global : Value
  method : Method
  jumps : Nat

/-- A frame as instructions see it. -/
structure View extends Setting where
  locals : List Value
  /-- The operands, the lowest first. -/
  operands : List Value
  scope : List Value

structure Frame.Shows (f : Frame) (V : View) : Prop extends f.Holds V.locals V.operands V.scope where
  nonneg : 0 ≤ f.stackIndex
  capacity : f.secondSlots.size = V.capacity
  global : f.global = V.global
  method : f.method = V.method
  jumps : f.jumps = V.jumps

theorem Frame.Holds.length_operands (hf : f.Holds L O S) : O.length = f.stackIndex.toNatClampNeg := by
  have := hf.fits
  rw [← hf.operands, List.length_take, Array.length_toList]
  omega

theorem ofNat_toNatClampNeg {j : Int64} (hj : 0 ≤ j) : j = .ofNat j.toNatClampNeg := by
  have h0 : 0 ≤ j.toInt := Int64.le_iff_toInt_le.1 hj
  have hlt := j.toInt_lt
  apply Int64.toInt_inj.1
  rw [Int64.toInt_ofNat_of_lt (by rw [Int64.toNatClampNeg]; omega), Int64.toNatClampNeg]
  omega

namespace Frame.Shows

variable {V : View}

theorem length_le (hf : f.Shows V) : V.operands.length ≤ V.capacity := by
  rw [hf.length_operands, ← hf.capacity]
  exact hf.fits

theorem length_lt (hf : f.Shows V) : V.operands.length < 2 ^ 31 := by
  have hle := hf.length_le
  have hlim := hf.limit
  rw [hf.capacity, Frame.operandLimit] at hlim
  omega

theorem index_eq (hf : f.Shows V) : f.stackIndex = .ofNat V.operands.length := by
  rw [hf.length_operands]
  exact ofNat_toNatClampNeg hf.nonneg

end Frame.Shows

theorem toNatClampNeg_ofNat (hn : n < 2 ^ 63) : (Int64.ofNat n).toNatClampNeg = n :=
  Int64.toNatClampNeg_ofNat_of_lt hn

theorem ofNat_nonneg (hn : n < 2 ^ 63) : 0 ≤ Int64.ofNat n := by
  rw [Int64.le_iff_toInt_le, Int64.toInt_ofNat_of_lt hn]
  simp

theorem not_ofNat_neg (hn : n < 2 ^ 63) : ¬Int64.ofNat n < 0 := by
  rw [Int64.lt_iff_toInt_lt, Int64.toInt_ofNat_of_lt hn]
  simp

theorem Int32.toInt64_eq_ofNat {i : Int32} (hi : 0 ≤ i) :
    i.toInt64 = .ofNat i.toNatClampNeg ∧ i.toNatClampNeg < 2 ^ 31 := by
  have h0 : 0 ≤ i.toInt := Int32.le_iff_toInt_le.1 hi
  have hlt := i.toInt_lt
  have hclamp : i.toNatClampNeg < 2 ^ 31 := by rw [Int32.toNatClampNeg]; omega
  refine ⟨Int64.toInt_inj.1 ?_, hclamp⟩
  rw [Int32.toInt_toInt64, Int64.toInt_ofNat_of_lt (by omega), Int32.toNatClampNeg]
  omega

theorem toNatClampNeg_ne {i j : Int32} (hi : 0 ≤ i) (hj : 0 ≤ j) (hne : i ≠ j) :
    i.toNatClampNeg ≠ j.toNatClampNeg := by
  intro heq
  refine hne (Int32.toInt_inj.1 ?_)
  rw [Int32.le_iff_toInt_le] at hi hj
  simp only [Int32.toNatClampNeg, Int32.toInt_zero] at heq hi hj
  omega

/-! ## The heap -/

theorem onHeap_ok {α : Type} {h' : Heap} {y : HeapM α} {r : α} (hok : y h = .ok r h') :
    onHeap y (⟨h, f, s⟩ : Machine σ) = .ok r ⟨h', f, s⟩ := by
  simp only [onHeap, hok]

theorem onHeap_eq_ok {α : Type} {y : HeapM α} {r : α} {m : Machine σ}
    (hok : onHeap y (⟨h, f, s⟩ : Machine σ) = .ok r m) : ∃ h', y h = .ok r h' ∧ m = ⟨h', f, s⟩ := by
  simp only [onHeap] at hok
  split at hok
  · rename_i h' hrun
    cases hok
    exact ⟨h', hrun, rfl⟩
  · cases hok

/-! ## Slots -/

theorem Frame.slot?_ofNat (f : Frame) (a : Option Area) (hn : n < 2 ^ 63) :
    f.slot? a (.ofNat n) = (f.slots a)[n]? := by
  rw [Frame.slot?, if_neg (not_ofNat_neg hn), toNatClampNeg_ofNat hn]

theorem Frame.hasSlot_ofNat (f : Frame) (a : Option Area) (hn : n < 2 ^ 63) :
    f.hasSlot a (.ofNat n) = decide (n < (f.slots a).size) := by
  simp [Frame.hasSlot, ofNat_nonneg hn, toNatClampNeg_ofNat hn]

theorem readSlot_ok {a : Frame → Option Area} {j : Int64} (hv : f.slot? (a f) j = some v) :
    readSlot a j (⟨h, f, s⟩ : Machine σ) = .ok v ⟨h, f, s⟩ := by
  simp [readSlot, hv]

theorem readSlot_error {a : Frame → Option Area} {j : Int64} (hv : f.slot? (a f) j = none) :
    readSlot a j (⟨h, f, s⟩ : Machine σ) = .error .bounds ⟨h, f, s⟩ := by
  simp [readSlot, hv]

/-- The slots of the stack with another one written. -/
def Frame.setOperand (f : Frame) (n : Nat) (v : Value) : Frame :=
  { f with secondSlots := f.secondSlots.setIfInBounds n v }

def Frame.setLocal (f : Frame) (n : Nat) (v : Value) : Frame :=
  { f with firstSlots := f.firstSlots.setIfInBounds n v }

theorem writeOperand_ok {a : Frame → Option Area} (ha : a f = some .second) (hn : n < f.secondSlots.size)
    (hlt : n < 2 ^ 63) :
    writeSlot a (.ofNat n) v (⟨h, f, s⟩ : Machine σ) = .ok () ⟨h, f.setOperand n v, s⟩ := by
  have hslot : f.hasSlot (a f) (.ofNat n) = true := by
    rw [Frame.hasSlot_ofNat _ _ hlt, ha]
    exact decide_eq_true hn
  simp only [writeSlot]
  rw [if_pos hslot, ha, Frame.setSlot, toNatClampNeg_ofNat hlt]
  rfl

theorem writeOperand_error {a : Frame → Option Area} (ha : a f = some .second)
    (hn : f.secondSlots.size ≤ n) (hlt : n < 2 ^ 63) :
    writeSlot a (.ofNat n) v (⟨h, f, s⟩ : Machine σ) = .error .bounds ⟨h, f, s⟩ := by
  have hslot : f.hasSlot (a f) (.ofNat n) = false := by
    rw [Frame.hasSlot_ofNat _ _ hlt, ha]
    exact decide_eq_false (Nat.not_lt.2 hn)
  simp [writeSlot, hslot]

theorem writeLocal_ok {a : Frame → Option Area} (ha : a f = some .first) (hn : n < f.firstSlots.size)
    (hlt : n < 2 ^ 63) :
    writeSlot a (.ofNat n) v (⟨h, f, s⟩ : Machine σ) = .ok () ⟨h, f.setLocal n v, s⟩ := by
  have hslot : f.hasSlot (a f) (.ofNat n) = true := by
    rw [Frame.hasSlot_ofNat _ _ hlt, ha]
    exact decide_eq_true hn
  simp only [writeSlot]
  rw [if_pos hslot, ha, Frame.setSlot, toNatClampNeg_ofNat hlt]
  rfl

theorem writeLocal_error {a : Frame → Option Area} (ha : a f = some .first)
    (hn : f.firstSlots.size ≤ n) (hlt : n < 2 ^ 63) :
    writeSlot a (.ofNat n) v (⟨h, f, s⟩ : Machine σ) = .error .bounds ⟨h, f, s⟩ := by
  have hslot : f.hasSlot (a f) (.ofNat n) = false := by
    rw [Frame.hasSlot_ofNat _ _ hlt, ha]
    exact decide_eq_false (Nat.not_lt.2 hn)
  simp [writeSlot, hslot]

/-! ## The locals -/

namespace Frame.Shows

variable {V : View}

theorem slot?_local (hf : f.Shows V) (hv : V.locals[i]? = some v) (hlt : i < 2 ^ 63) :
    f.slot? (some .first) (.ofNat i) = some v := by
  rw [Frame.slot?_ofNat f _ hlt, Frame.slots, ← Array.getElem?_toList, hf.slots, hv]

theorem setLocal (hf : f.Shows V) (i : Nat) (v : Value) :
    (f.setLocal i v).Shows { V with locals := V.locals.set i v } :=
  { hf with
    slots := by simp only [Frame.setLocal, Array.toList_setIfInBounds, hf.slots]
    slotLimit := by simpa [Frame.setLocal] using hf.slotLimit }

end Frame.Shows

/-! ## The operand stack -/

namespace Frame.Shows

variable {V : View}

/-- The topmost operand is in the slot below the stack index. -/
theorem getElem?_top (hf : f.Shows V) (hO : V.operands = O ++ [v]) :
    f.secondSlots[O.length]? = some v := by
  have htake := hf.operands
  have hlen := hf.length_operands
  rw [hO, List.length_append, List.length_singleton] at hlen
  rw [hO, ← hlen] at htake
  have hget : (f.secondSlots.toList.take (O.length + 1))[O.length]? = some v := by
    rw [htake]
    simp
  rwa [List.getElem?_take_of_lt (Nat.lt_succ_self _), Array.getElem?_toList] at hget

/-- Other operands, of which the slots above do not matter. -/
theorem withOperands {f' : Frame} (hf : f.Shows V)
    (hslots : f'.secondSlots.toList.take O.length = O)
    (hsize : f'.secondSlots.size = f.secondSlots.size) (hindex : f'.stackIndex = .ofNat O.length)
    (hrest : f' = { f with secondSlots := f'.secondSlots, stackIndex := f'.stackIndex }) :
    f'.Shows { V with operands := O } := by
  have hlim := hf.limit
  have hlen : O.length ≤ f'.secondSlots.size := by
    have hle := List.length_take_le' O.length f'.secondSlots.toList
    rwa [hslots, Array.length_toList] at hle
  have hlt : O.length < 2 ^ 63 := by
    rw [hsize] at hlen
    rw [Frame.operandLimit] at hlim
    omega
  have hclamp : f'.stackIndex.toNatClampNeg = O.length := by
    rw [hindex, toNatClampNeg_ofNat hlt]
  have hnonneg : 0 ≤ f'.stackIndex := hindex ▸ ofNat_nonneg hlt
  rw [hrest]
  rw [← hclamp] at hslots hlen
  exact ⟨⟨hf.locals, hf.stack, hf.slots, hslots, hlen, hf.scope, hf.slotLimit, hsize ▸ hlim⟩, hnonneg,
    hsize.trans hf.capacity, hf.global, hf.method, hf.jumps⟩

theorem take_operands (hf : f.Shows V) {T : List Value} (hO : V.operands = O ++ T) :
    f.secondSlots.toList.take O.length = O := by
  have hlen := hf.length_operands
  rw [hO, List.length_append] at hlen
  have htake := congrArg (List.take O.length) hf.operands
  rwa [List.take_take, hO, List.take_left, Nat.min_eq_left (by omega)] at htake

end Frame.Shows

theorem ofNat_succ_sub_one (n : Nat) : Int64.ofNat (n + 1) - 1 = .ofNat n := by
  rw [Int64.ofNat_add]
  simp

variable {V : View}

theorem pop_ok (hf : f.Shows V) (hO : V.operands = O ++ [v]) :
    ∃ f', pop (⟨h, f, s⟩ : Machine σ) = .ok v ⟨h, f', s⟩ ∧ f'.Shows { V with operands := O } := by
  have hlt := hf.length_lt
  have hle := hf.length_le
  rw [hO, List.length_append, List.length_singleton] at hlt hle
  have hsize : O.length < f.secondSlots.size := by rw [hf.capacity]; omega
  have hindex : f.stackIndex - 1 = .ofNat O.length := by
    rw [hf.index_eq, hO, List.length_append, List.length_singleton, ofNat_succ_sub_one]
  have hread : f.slot? f.stack (.ofNat O.length) = some v := by
    rw [Frame.slot?_ofNat f _ (by omega), hf.stack]
    exact hf.getElem?_top hO
  refine ⟨{ f.setOperand O.length .unbound with stackIndex := .ofNat O.length }, ?_, ?_⟩
  · simp only [pop, Bind.bind, EStateM.bind, frame, hindex, readSlot_ok hread,
      writeOperand_ok hf.stack hsize (by omega : O.length < 2 ^ 63), modifyFrame]
    rfl
  · refine hf.withOperands ?_ ?_ rfl rfl
    · rw [Frame.setOperand]
      simp only [Array.toList_setIfInBounds, List.take_set_of_le (Nat.le_refl _)]
      exact hf.take_operands hO
    · simp [Frame.setOperand]

theorem pop_error (hf : f.Shows V) (hO : V.operands = []) :
    pop (⟨h, f, s⟩ : Machine σ) = .error .bounds ⟨h, f, s⟩ := by
  have hindex : f.stackIndex = 0 := by rw [hf.index_eq, hO]; rfl
  have hread : f.slot? f.stack (f.stackIndex - 1) = none := by
    rw [hindex, Frame.slot?, if_pos (by decide)]
  simp only [pop, Bind.bind, EStateM.bind, frame, readSlot_error hread]

theorem push_ok (hf : f.Shows V) (hroom : V.operands.length < V.capacity) :
    ∃ f', push v (⟨h, f, s⟩ : Machine σ) = .ok () ⟨h, f', s⟩ ∧
      f'.Shows { V with operands := V.operands ++ [v] } := by
  have hlt := hf.length_lt
  have hsize : V.operands.length < f.secondSlots.size := by rwa [hf.capacity]
  have hnext : f.stackIndex + 1 = .ofNat (V.operands.length + 1) := by
    rw [hf.index_eq, Int64.ofNat_add]
    rfl
  refine ⟨{ f.setOperand V.operands.length v with stackIndex := f.stackIndex + 1 }, ?_, ?_⟩
  · have hwrite := writeOperand_ok (h := h) (s := s) (v := v) hf.stack hsize (by omega)
    rw [← hf.index_eq] at hwrite
    simp only [push, Bind.bind, EStateM.bind, frame, hwrite, modifyFrame]
  · refine hf.withOperands ?_ ?_ ?_ rfl
    · simp only [Frame.setOperand, Array.toList_setIfInBounds, List.length_append,
        List.length_singleton]
      have htake := hf.take_operands (T := []) (O := V.operands) (by simp)
      rw [List.take_add_one, List.take_set_of_le (Nat.le_refl _), htake,
        List.getElem?_set_self (by simpa using hsize)]
      rfl
    · simp [Frame.setOperand]
    · simpa using hnext

theorem push_error (hf : f.Shows V) (hfull : V.capacity ≤ V.operands.length) :
    push v (⟨h, f, s⟩ : Machine σ) = .error .bounds ⟨h, f, s⟩ := by
  have hlt := hf.length_lt
  have hwrite := writeOperand_error (h := h) (s := s) (v := v) hf.stack (hf.capacity ▸ hfull)
    (by omega)
  rw [← hf.index_eq] at hwrite
  simp only [push, Bind.bind, EStateM.bind, frame, hwrite]

/-- The slots from `n` on are not seen any more. -/
theorem unbindFrom_ok (count : Nat) (hstack : f.stack = some .second) {n : Nat}
    (hfit : n + count ≤ f.secondSlots.size) (hlt : n + count < 2 ^ 63) :
    ∃ slots : Array Value, unbindFrom count (.ofNat n) (⟨h, f, s⟩ : Machine σ) =
        .ok () ⟨h, { f with secondSlots := slots }, s⟩ ∧
      slots.toList.take n = f.secondSlots.toList.take n ∧ slots.size = f.secondSlots.size := by
  induction count generalizing f n with
  | zero => exact ⟨f.secondSlots, rfl, rfl, rfl⟩
  | succ count ih =>
    have hwrite := writeOperand_ok (h := h) (s := s) (v := .unbound) hstack
      (by omega : n < f.secondSlots.size) (by omega)
    have hnext : Int64.ofNat n + 1 = .ofNat (n + 1) := by rw [Int64.ofNat_add]; rfl
    obtain ⟨slots, hok, htake, hsize⟩ := ih (f := f.setOperand n .unbound) (n := n + 1) hstack
      (by simp only [Frame.setOperand, Array.size_setIfInBounds]; omega) (by omega)
    refine ⟨slots, ?_, ?_, ?_⟩
    · simp only [unbindFrom, Bind.bind, EStateM.bind, hwrite, hnext, hok]
      rfl
    · have htake := congrArg (List.take n) htake
      rw [List.take_take, List.take_take, Nat.min_eq_left (Nat.le_succ n)] at htake
      rw [htake]
      simp only [Frame.setOperand, Array.toList_setIfInBounds, List.take_set_of_le (Nat.le_refl _)]
    · simpa [Frame.setOperand] using hsize

theorem toInt_index_sub {len : Nat} (hlen : len < 2 ^ 31) (c : Int32) :
    (Int64.ofNat len - c.toInt64).toInt = len - c.toInt := by
  have hlo := c.le_toInt
  have hhi := c.toInt_lt
  rw [Int64.toInt_sub, Int64.toInt_ofNat_of_lt (by omega), Int32.toInt_toInt64]
  exact Int.bmod_eq_of_le (by omega) (by omega)

theorem popMany_ok {c : Int32} {T : List Value} (hf : f.Shows V) (hO : V.operands = O ++ T)
    (hc : c.toInt = T.length) :
    ∃ f', popMany c (⟨h, f, s⟩ : Machine σ) = .ok T ⟨h, f', s⟩ ∧
      f'.Shows { V with operands := O } := by
  have hlt := hf.length_lt
  have hle := hf.length_le
  have hcap := hf.capacity
  have hlen := congrArg List.length hO
  rw [List.length_append] at hlen
  have hindex := toInt_index_sub hlt c
  rw [← hf.index_eq, hc] at hindex
  have heq : f.stackIndex - c.toInt64 = .ofNat O.length := by
    apply Int64.toInt_inj.1
    rw [hindex, Int64.toInt_ofNat_of_lt (by omega)]
    omega
  have hclamp : c.toNatClampNeg = T.length := by rw [Int32.toNatClampNeg, hc]; rfl
  have hrange : ¬(c < 0 ∨ f.stackIndex - c.toInt64 < 0 ∨
      ((f.slots f.stack).size : Int) < (f.stackIndex - c.toInt64).toInt + c.toInt) := by
    have hc0 : ¬c < 0 := by
      rw [Int32.lt_iff_toInt_lt, hc]
      simp
    have hi0 : ¬f.stackIndex - c.toInt64 < 0 := by
      rw [heq]
      exact not_ofNat_neg (by omega)
    rw [hf.stack, hindex, hc]
    simp only [hc0, hi0, false_or, Frame.slots]
    omega
  obtain ⟨slots, hunbind, htake, hsize⟩ := unbindFrom_ok (h := h) (s := s) T.length hf.stack
    (n := O.length) (by omega) (by omega)
  refine ⟨{ f with secondSlots := slots, stackIndex := .ofNat O.length }, ?_, ?_⟩
  · have hvalues : ((f.slots f.stack).extract O.length (O.length + T.length)).toList = T := by
      have htop := hf.take_operands (T := []) (O := O ++ T) (by simp [hO])
      rw [List.length_append] at htop
      rw [hf.stack, Frame.slots, Array.toList_extract, List.extract_eq_take_drop,
        Nat.add_sub_cancel_left, List.take_drop, htop, List.drop_left]
    simp only [popMany, Bind.bind, EStateM.bind, frame, if_neg hrange]
    simp only [heq, toNatClampNeg_ofNat (by omega : O.length < 2 ^ 63), hclamp, hunbind, modifyFrame,
      hvalues]
    rfl
  · exact hf.withOperands (htake.trans (hf.take_operands hO)) hsize rfl rfl

theorem popMany_error {c : Int32} (hf : f.Shows V) (hc : c.toInt < 0 ∨ V.operands.length < c.toInt) :
    popMany c (⟨h, f, s⟩ : Machine σ) = .error .bounds ⟨h, f, s⟩ := by
  have hindex := toInt_index_sub hf.length_lt c
  rw [← hf.index_eq] at hindex
  have hrange : c < 0 ∨ f.stackIndex - c.toInt64 < 0 ∨
      ((f.slots f.stack).size : Int) < (f.stackIndex - c.toInt64).toInt + c.toInt := by
    rcases hc with hc | hc
    · exact .inl (Int32.lt_iff_toInt_lt.2 hc)
    · refine .inr (.inl (Int64.lt_iff_toInt_lt.2 ?_))
      rw [hindex]
      simp only [Int64.toInt_zero]
      omega
  simp only [popMany, Bind.bind, EStateM.bind, frame, if_pos hrange]
  rfl

/-! ## The real stack of compiled code

Compiled code computes positions in 32 bits and leaves what it has taken in the slots. -/

/-- The position of the topmost operand. -/
def topIndex : Act σ Int64 := do pure (((← frame).stackIndex.toInt32 + (-1 : Int32)).toInt64)

def peekReal : Act σ Value := do readSlot (fun _ => some .second) (← topIndex)

def popReal : Act σ Value := do
  let i ← topIndex
  modifyFrame fun f => { f with stackIndex := i }
  readSlot (fun _ => some .second) i

def pushReal (v : Value) : Act σ Unit := do
  let i := (← frame).stackIndex
  writeSlot (fun _ => some .second) i v
  modifyFrame fun f => { f with stackIndex := (i.toInt32 + 1).toInt64 }

theorem ofNat_toInt32 {n : Nat} (hn : n < 2 ^ 31) : (Int64.ofNat n).toInt32.toInt = n := by
  rw [Int64.toInt_toInt32, Int64.toInt_ofNat_of_lt (by omega)]
  exact Int.bmod_eq_of_le (by omega) (by omega)

theorem ofNat_pred_toInt32 {n : Nat} (hn : n + 1 < 2 ^ 31) :
    ((Int64.ofNat (n + 1)).toInt32 + (-1 : Int32)).toInt64 = .ofNat n := by
  apply Int64.toInt_inj.1
  rw [Int32.toInt_toInt64, Int32.toInt_add, ofNat_toInt32 hn, Int64.toInt_ofNat_of_lt (by omega)]
  have hone : (-1 : Int32).toInt = -1 := by decide
  rw [hone, Int.bmod_eq_of_le (by omega) (by omega)]
  omega

theorem ofNat_succ_toInt32 {n : Nat} (hn : n + 1 < 2 ^ 31) :
    ((Int64.ofNat n).toInt32 + 1).toInt64 = .ofNat (n + 1) := by
  apply Int64.toInt_inj.1
  rw [Int32.toInt_toInt64, Int32.toInt_add, ofNat_toInt32 (by omega),
    Int64.toInt_ofNat_of_lt (by omega)]
  have hone : (1 : Int32).toInt = 1 := by decide
  rw [hone, Int.bmod_eq_of_le (by omega) (by omega)]
  omega

theorem Frame.Shows.topIndex_eq (hf : f.Shows V) (hO : V.operands = O ++ [v]) :
    (f.stackIndex.toInt32 + (-1 : Int32)).toInt64 = .ofNat O.length := by
  have hlt := hf.length_lt
  rw [hO, List.length_append, List.length_singleton] at hlt
  rw [hf.index_eq, hO, List.length_append, List.length_singleton, ofNat_pred_toInt32 hlt]

theorem topIndex_ok : topIndex (⟨h, f, s⟩ : Machine σ) =
    .ok ((f.stackIndex.toInt32 + (-1 : Int32)).toInt64) ⟨h, f, s⟩ := rfl

theorem peekReal_ok (hf : f.Shows V) (hO : V.operands = O ++ [v]) :
    peekReal (⟨h, f, s⟩ : Machine σ) = .ok v ⟨h, f, s⟩ := by
  have hlt := hf.length_lt
  rw [hO, List.length_append] at hlt
  have hread : f.slot? (some .second) (.ofNat O.length) = some v := by
    rw [Frame.slot?_ofNat f _ (by omega)]
    exact hf.getElem?_top hO
  rw [peekReal, bind_of_ok topIndex_ok, hf.topIndex_eq hO]
  exact readSlot_ok (a := fun _ => some .second) hread

theorem popReal_ok (hf : f.Shows V) (hO : V.operands = O ++ [v]) :
    ∃ f', popReal (⟨h, f, s⟩ : Machine σ) = .ok v ⟨h, f', s⟩ ∧
      f'.Shows { V with operands := O } := by
  have hlt := hf.length_lt
  rw [hO, List.length_append] at hlt
  have hread : ({ f with stackIndex := .ofNat O.length } : Frame).slot? (some .second)
      (.ofNat O.length) = some v := by
    rw [Frame.slot?_ofNat _ _ (by omega)]
    exact hf.getElem?_top hO
  refine ⟨{ f with stackIndex := .ofNat O.length }, ?_, ?_⟩
  · rw [popReal, bind_of_ok topIndex_ok, hf.topIndex_eq hO]
    exact readSlot_ok (a := fun _ => some .second) hread
  · exact hf.withOperands (hf.take_operands hO) rfl rfl rfl

theorem topIndex_zero : ((0 : Int64).toInt32 + (-1 : Int32)).toInt64 = -1 := by decide

theorem Frame.slot?_neg_one (f : Frame) (a : Option Area) : f.slot? a (-1) = none := by
  rw [Frame.slot?, if_pos (by decide)]

theorem peekReal_error (hf : f.Shows V) (hO : V.operands = []) :
    peekReal (⟨h, f, s⟩ : Machine σ) = .error .bounds ⟨h, f, s⟩ := by
  have hindex : f.stackIndex = 0 := by rw [hf.index_eq, hO]; rfl
  rw [peekReal, bind_of_ok topIndex_ok, hindex, topIndex_zero]
  exact readSlot_error (a := fun _ => some .second) (Frame.slot?_neg_one f _)

/-- Taking an operand that is not there leaves nothing on the stack. -/
theorem popReal_error (hf : f.Shows V) (hO : V.operands = []) :
    ∃ f', popReal (⟨h, f, s⟩ : Machine σ) = .error .bounds ⟨h, f', s⟩ ∧
      f'.Holds V.locals [] V.scope := by
  have hindex : f.stackIndex = 0 := by rw [hf.index_eq, hO]; rfl
  refine ⟨{ f with stackIndex := -1 }, ?_, ?_⟩
  · rw [popReal, bind_of_ok topIndex_ok, hindex, topIndex_zero]
    exact readSlot_error (a := fun _ => some .second) (Frame.slot?_neg_one _ _)
  · have hclamp : (-1 : Int64).toNatClampNeg = 0 := by decide
    refine ⟨hf.locals, hf.stack, hf.slots, ?_, ?_, hf.scope, hf.slotLimit, hf.limit⟩
    · simp only [hclamp, List.take_zero]
    · simp only [hclamp, Nat.zero_le]

theorem pushReal_ok (hf : f.Shows V) (hroom : V.operands.length < V.capacity) :
    ∃ f', pushReal v (⟨h, f, s⟩ : Machine σ) = .ok () ⟨h, f', s⟩ ∧
      f'.Shows { V with operands := V.operands ++ [v] } := by
  obtain ⟨f', hok, hf'⟩ := push_ok (h := h) (s := s) (v := v) hf hroom
  have hlim := hf.limit
  rw [hf.capacity, Frame.operandLimit] at hlim
  have hnext : f.stackIndex + 1 = (f.stackIndex.toInt32 + 1).toInt64 := by
    rw [hf.index_eq, ofNat_succ_toInt32 (by omega), Int64.ofNat_add]
    rfl
  -- The stack is where compiled code takes it to be, and the sum does not overflow.
  have hsame : pushReal v (⟨h, f, s⟩ : Machine σ) = push v ⟨h, f, s⟩ := by
    simp only [pushReal, push, Bind.bind, EStateM.bind, frame, writeSlot, hf.stack, hnext]
  exact ⟨f', hsame.trans hok, hf'⟩

theorem pushReal_error (hf : f.Shows V) (hfull : V.capacity ≤ V.operands.length) :
    pushReal v (⟨h, f, s⟩ : Machine σ) = .error .bounds ⟨h, f, s⟩ := by
  have hlt := hf.length_lt
  have hwrite := writeOperand_error (a := fun _ => some .second) (h := h) (s := s) (v := v) rfl
    (hf.capacity ▸ hfull) (by omega)
  rw [← hf.index_eq] at hwrite
  simp only [pushReal, Bind.bind, EStateM.bind, frame, hwrite]

/-! ## Accounted machines -/

/-- The values in a frame. -/
def View.values (V : View) : Multiset Value := ↑V.locals + ↑V.operands + ↑V.scope

/-- The references to each cell are those that cells hold, those in the frame, and those that are owned
elsewhere. -/
structure Machine.Accounts (mc : Machine σ) (V : View) (owned : Multiset Value) : Prop where
  frame : mc.frame.Shows V
  heap : Accounted (V.values + owned) mc.heap

theorem Frame.Shows.values_eq {V V' : View} (hf : f.Shows V) (hf' : f.Shows V') : V.values = V'.values := by
  rw [View.values, View.values, ← hf.slots, ← hf.operands, ← hf.scope, hf'.slots, hf'.operands, hf'.scope]

end MethodJit
