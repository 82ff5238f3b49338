import Mathlib.Tactic.Abel
import MethodJit.Proofs.Cascade
import MethodJit.Proofs.Frames

/-!
# Enumerations

An enumeration is held by two locals, one for its object and one for its position. Moving it on keeps all
references accounted if the two locals differ or if there is a next position. At the end of an
enumeration whose object and position share one local, the new position is overwritten but not given
up, so that its count is too high from then on.
-/

namespace MethodJit

open Relation

variable {σ : Type} {mc : Machine σ} {V : View} {owned : Multiset Value} {h h' : Heap} {f : Frame} {s : σ}
  {i j : Int32} {a : Address} {v x old : Value}

/-! ## References that nothing holds -/

/-- No cell holds a reference to an address. -/
def Heap.Unheld (h : Heap) (a : Address) : Prop :=
  ∀ (b : Address) c, h.cells[b]? = some c → .ref a ∉ c.body.children

theorem Heap.Unheld.setCell {b : Address} {c : Cell} (hu : h.Unheld a) (hc : .ref a ∉ c.body.children) :
    (h.setCell b c).Unheld a := by
  intro k d hd
  simp only [Heap.setCell, Array.getElem?_setIfInBounds] at hd
  split at hd
  · split at hd
    · cases hd
      exact hc
    · cases hd
  · exact hu k d hd

theorem Heap.Unheld.held (hu : h.Unheld a) : h.held a = 0 := by
  have hcells (c : Cell) (hc : c ∈ h.cells.toList) : c.held a = 0 := by
    obtain ⟨b, hb⟩ := List.getElem?_of_mem hc
    have hchildren := hu b c (by simpa using hb)
    rw [Cell.held, List.count_eq_zero.2 hchildren, ite_self]
  unfold Heap.held
  generalize h.cells.toList = cells at hcells
  induction cells with
  | nil => rfl
  | cons c cells ih =>
    obtain ⟨hc, hrest⟩ := List.forall_mem_cons.1 hcells
    rw [Heap.total, hc, ih hrest]

/-- No cell of an accounted heap holds a reference to a cell that does not exist yet. -/
theorem Accounted.unheld_size (hac : Accounted owned h) : h.Unheld h.cells.size := by
  intro b c hc hmem
  by_cases hlive : c.count = 0
  · rw [hac.empty b c hc hlive] at hmem
    exact List.not_mem_nil hmem
  · obtain ⟨d, hd, -⟩ := hac.cell_of_child hc hlive hmem
    simp at hd

namespace Cascade

variable {s s' : Cascade}

/-- A cascade does not reach a cell to which neither it nor a cell has a reference. -/
theorem Step.unheld (hs : Step s s') (hp : .ref a ∉ s.pending) (hu : s.heap.Unheld a) :
    .ref a ∉ s'.pending ∧ s'.heap.Unheld a ∧ s'.heap.countAt a = s.heap.countAt a := by
  obtain ⟨hok, horder⟩ := hs
  rename_i v held order rest h h'
  obtain ⟨hv, hrest⟩ := not_or.1 fun hm => hp (List.mem_cons.2 hm)
  have hpending (hheld : .ref a ∉ held) : .ref a ∉ order ++ rest := by
    rw [List.mem_append, horder.mem_iff]
    exact not_or.2 ⟨hheld, hrest⟩
  by_cases hv' : ∀ b, v ≠ .ref b
  · obtain ⟨rfl, rfl⟩ := giveUp_immortal hv' hok
    exact ⟨hpending List.not_mem_nil, hu, rfl⟩
  · push Not at hv'
    obtain ⟨b, rfl⟩ := hv'
    obtain ⟨c, hc, -, rfl, rfl⟩ := giveUp_ref.1 hok
    have hchildren := hu b c hc
    refine ⟨hpending ?_, hu.setCell ?_, ?_⟩
    · unfold Cell.yielded
      split
      · exact hchildren
      · exact List.not_mem_nil
    · unfold Cell.relieved
      split
      · rw [Body.children_emptied]
        exact List.not_mem_nil
      · exact hchildren
    · have hab : a ≠ b := fun heq => hv (by rw [heq])
      simp only [Heap.countAt, cells_setCell hc, if_neg hab]

theorem steps_unheld (hs : ReflTransGen Step s s') (hp : .ref a ∉ s.pending) (hu : s.heap.Unheld a) :
    .ref a ∉ s'.pending ∧ s'.heap.Unheld a ∧ s'.heap.countAt a = s.heap.countAt a := by
  induction hs with
  | refl => exact ⟨hp, hu, rfl⟩
  | tail _ hstep ih =>
    obtain ⟨hp, hu, hcount⟩ := ih
    obtain ⟨hp, hu, hcount'⟩ := hstep.unheld hp hu
    exact ⟨hp, hu, hcount'.trans hcount⟩

end Cascade

theorem Heap.Unheld.release (hu : h.Unheld a) (hv : v ≠ .ref a) (hok : release v h = .ok () h') :
    h'.Unheld a ∧ h'.countAt a = h.countAt a :=
  (Cascade.steps_unheld (Cascade.steps_of_releaseAll [v] hok) (by simpa using hv.symm) hu).2

/-! ## Changes of one local -/

theorem coe_set_add {l : List Value} {n : Nat} (hv : l[n]? = some v) (w : Value) :
    (↑(l.set n w) + {v} : Multiset Value) = ↑l + {w} := by
  obtain ⟨hn, rfl⟩ := List.getElem?_eq_some_iff.1 hv
  have hsplit : l = l.take n ++ l[n] :: l.drop (n + 1) := by
    rw [List.getElem_cons_drop, List.take_append_drop]
  rw [List.set_eq_take_append_cons_drop, if_pos hn]
  conv_rhs => rw [hsplit]
  simp only [← Multiset.coe_add, ← Multiset.cons_coe, ← Multiset.singleton_add]
  abel

theorem Accounted.exists_release (hac : Accounted (owned + {v}) h) (hv : v ≠ .unbound) :
    ∃ h', MethodJit.release v h = .ok () h' ∧ Accounted owned h' := by
  rw [add_comm, ← Multiset.coe_singleton] at hac
  obtain ⟨h', hok, hr, -⟩ := hac.represents.releaseAll [v] (by simpa using hv.symm)
  exact ⟨h', hok, hr.accounted⟩

/-- A new value is stored in a local, and the displaced one is to be given up. -/
theorem Accounted.setLocal {n : Nat} (hac : Accounted (V.values + owned + {x}) h)
    (hv : V.locals[n]? = some v) :
    Accounted (({ V with locals := V.locals.set n x } : View).values + owned + {v}) h := by
  have hvalues : ({ V with locals := V.locals.set n x } : View).values + owned + {v} =
      V.values + owned + {x} := by
    have hset := coe_set_add hv x
    simp only [View.values]
    calc (↑(V.locals.set n x) + ↑V.operands + ↑V.scope + owned + {v} : Multiset Value)
        = ↑(V.locals.set n x) + {v} + (↑V.operands + ↑V.scope + owned) := by abel
      _ = ↑V.locals + ↑V.operands + ↑V.scope + owned + {x} := by rw [hset]; abel
  rwa [hvalues]

/-! ## Moving on -/

theorem readLocal_ok (hf : f.Shows V) (hi : 0 ≤ i) (hv : V.locals[i.toNatClampNeg]? = some v) :
    readLocal i.toInt64 (⟨h, f, s⟩ : Machine σ) = .ok v ⟨h, f, s⟩ := by
  obtain ⟨heq, hlt⟩ := Int32.toInt64_eq_ofNat hi
  refine readSlot_ok ?_
  rw [heq, hf.locals]
  exact hf.slot?_local hv (by omega)

theorem writeLocal_shows (hf : f.Shows V) (hi : 0 ≤ i) (hlt : i.toNatClampNeg < V.locals.length)
    (v : Value) : writeLocal i.toInt64 v (⟨h, f, s⟩ : Machine σ) =
      .ok () ⟨h, f.setLocal i.toNatClampNeg v, s⟩ := by
  obtain ⟨heq, hbound⟩ := Int32.toInt64_eq_ofNat hi
  rw [heq]
  refine writeLocal_ok hf.locals ?_ (by omega)
  rwa [← hf.slots, Array.length_toList] at hlt

/-- The position after the one that a value stands for. -/
def Heap.positionAfter (h : Heap) (x old : Value) : Int := h.nextIndex x (h.toInt32 old).toInt

/-- The machine once a position is stored. -/
def storedPosition (h : Heap) (f : Frame) (s : σ) (j : Int32) (n : Int) : Machine σ :=
  ⟨h.extended (.int (.ofInt n)), f.setLocal j.toNatClampNeg (.ref h.cells.size), s⟩

/-- What is left to do then, once the old position is given up. -/
def closeEnumeration (i : Int32) (x : Value) (n : Int) : Act σ Unit :=
  if n = 0 then do
    writeLocal i.toInt64 .null
    onHeap (release x)
    push (.bool false)
  else push (.bool true)

theorem hasNext2_eq (hf : f.Shows V) (hi : 0 ≤ i) (hj : 0 ≤ j)
    (hx : V.locals[i.toNatClampNeg]? = some x) (hold : V.locals[j.toNatClampNeg]? = some old) :
    hasNext2 i j (⟨h, f, s⟩ : Machine σ) = (do
      onHeap (release old)
      closeEnumeration i x (h.positionAfter x old)) (storedPosition h f s j (h.positionAfter x old)) := by
  have hlt := (List.getElem?_eq_some_iff.1 hold).1
  have hget : (get : Act σ (Machine σ)) ⟨h, f, s⟩ = .ok ⟨h, f, s⟩ ⟨h, f, s⟩ := rfl
  have hnew : onHeap (newInt (.ofInt (h.positionAfter x old))) (⟨h, f, s⟩ : Machine σ) =
      .ok (.ref h.cells.size) ⟨h.extended (.int (.ofInt (h.positionAfter x old))), f, s⟩ := rfl
  unfold hasNext2
  rw [bind_of_ok (readLocal_ok hf hi hx), bind_of_ok (readLocal_ok hf hj hold), bind_of_ok hget]
  simp only
  rw [← Heap.positionAfter, bind_of_ok hnew, bind_of_ok (writeLocal_shows hf hj hlt _), storedPosition]
  unfold closeEnumeration
  by_cases hnext : h.positionAfter x old = 0
  · simp only [hnext, if_true, ne_eq, not_true, decide_false]
  · simp only [hnext, if_false, ne_eq, not_false_iff, decide_true]

/-- The next position is stored, and the old one is given up. -/
theorem exists_release_position (hac : Accounted (V.values + owned) h)
    (hold : V.locals[j.toNatClampNeg]? = some old) (hbound : old ≠ .unbound) (n : Int) :
    ∃ h', onHeap (release old) (storedPosition h f s j n) =
        .ok () ⟨h', f.setLocal j.toNatClampNeg (.ref h.cells.size), s⟩ ∧
      Accounted (({ V with locals := V.locals.set j.toNatClampNeg (.ref h.cells.size) } : View).values +
        owned) h' := by
  have hnew : Accounted (V.values + owned + {.ref h.cells.size}) (h.extended (.int (.ofInt n))) := by
    rw [add_comm]
    exact Accounted.alloc (by simpa [Body.children] using hac) (by simp [Body.children]) nofun
  obtain ⟨h', hok, hac'⟩ := (hnew.setLocal hold).exists_release hbound
  exact ⟨h', onHeap_ok hok, hac'⟩

/-- An operand that needs no reference is pushed. -/
theorem Machine.Accounts.push_bool (hac : mc.Accounts V owned) (hroom : V.operands.length < V.capacity)
    (b : Bool) : ∃ mc', push (.bool b) mc = .ok () mc' ∧
      mc'.Accounts { V with operands := V.operands ++ [.bool b] } owned := by
  obtain ⟨h, f, s⟩ := mc
  obtain ⟨f', hok, hf'⟩ := push_ok (h := h) (s := s) (v := .bool b) hac.frame hroom
  refine ⟨⟨h, f', s⟩, hok, hf', hac.heap.congr fun a => ?_⟩
  simp [View.values, ← Multiset.coe_add]

/-- Different locals, or a next position. -/
theorem Machine.Accounts.exists_hasNext2 (hac : mc.Accounts V owned) (hi : 0 ≤ i) (hj : 0 ≤ j)
    (hx : V.locals[i.toNatClampNeg]? = some x) (hold : V.locals[j.toNatClampNeg]? = some old)
    (hxb : x ≠ .unbound) (hob : old ≠ .unbound) (hroom : V.operands.length < V.capacity)
    (hne : i ≠ j ∨ mc.heap.positionAfter x old ≠ 0) :
    ∃ mc' L b, hasNext2 i j mc = .ok () mc' ∧
      mc'.Accounts { V with locals := L, operands := V.operands ++ [.bool b] } owned ∧
      L.length = V.locals.length ∧
      ∀ k, k ≠ i.toNatClampNeg → k ≠ j.toNatClampNeg → L[k]? = V.locals[k]? := by
  obtain ⟨h, f, s⟩ := mc
  obtain ⟨hf, hac⟩ := hac
  obtain ⟨h₁, hok₁, hac₁⟩ := exists_release_position (f := f) (s := s) hac hold hob (h.positionAfter x old)
  have hf₁ := hf.setLocal j.toNatClampNeg (.ref h.cells.size)
  rw [hasNext2_eq hf hi hj hx hold, bind_of_ok hok₁]
  unfold closeEnumeration
  by_cases hnext : h.positionAfter x old = 0
  · -- The object is in its local still, since the position is elsewhere.
    have hij : j.toNatClampNeg ≠ i.toNatClampNeg := by
      intro heq
      have hsame := congrArg Int64.toInt (Int32.toInt64_eq_ofNat hi).1
      rw [← heq, ← (Int32.toInt64_eq_ofNat hj).1, Int32.toInt_toInt64, Int32.toInt_toInt64] at hsame
      exact hne.resolve_right (not_not.2 hnext) (Int32.toInt_inj.1 hsame)
    have hx₁ : (V.locals.set j.toNatClampNeg (.ref h.cells.size))[i.toNatClampNeg]? = some x := by
      rw [List.getElem?_set_ne hij, hx]
    have hlt := (List.getElem?_eq_some_iff.1 hx₁).1
    have hnull : Accounted (({ V with locals := V.locals.set j.toNatClampNeg (.ref h.cells.size) } : View).values +
        owned + {.null}) h₁ := hac₁.congr fun a => by simp
    obtain ⟨h₂, hok₂, hac₂⟩ := (hnull.setLocal hx₁).exists_release hxb
    have hf₂ := hf₁.setLocal i.toNatClampNeg .null
    obtain ⟨mc', hok₃, hac₃⟩ := (⟨hf₂, hac₂⟩ : Machine.Accounts ⟨h₂, _, s⟩ _ _).push_bool hroom false
    rw [if_pos hnext, bind_of_ok (writeLocal_shows hf₁ hi hlt _), bind_of_ok (onHeap_ok hok₂)]
    refine ⟨mc', _, false, hok₃, hac₃, by simp, fun k hki hkj => ?_⟩
    rw [List.getElem?_set_ne (Ne.symm hki), List.getElem?_set_ne (Ne.symm hkj)]
  · obtain ⟨mc', hok₂, hac₂⟩ := (⟨hf₁, hac₁⟩ : Machine.Accounts ⟨h₁, _, s⟩ _ _).push_bool hroom true
    rw [if_neg hnext]
    refine ⟨mc', _, true, hok₂, hac₂, by simp, fun k _ hkj => ?_⟩
    rw [List.getElem?_set_ne (Ne.symm hkj)]

/-- At the end of an enumeration in a single local, the count of the new position is too high. -/
theorem Machine.Accounts.not_hasNext2 (hac : mc.Accounts V owned) (hi : 0 ≤ i)
    (hx : V.locals[i.toNatClampNeg]? = some x) (hroom : V.operands.length < V.capacity)
    (hnext : mc.heap.positionAfter x x = 0) {mc' : Machine σ} {V' : View}
    (hok : hasNext2 i i mc = .ok () mc') : ¬mc'.Accounts V' owned := by
  intro hac'
  obtain ⟨h, f, s⟩ := mc
  obtain ⟨hf, hac⟩ := hac
  have hfresh : .ref h.cells.size ∉ V.values + owned := fun hmem => by
    obtain ⟨c, hc, -⟩ := hac.cell_of_mem hmem
    simp at hc
  have hlocal : x ∈ V.values + owned := by
    have hmem : x ∈ V.locals := List.mem_of_getElem? hx
    simp [View.values, hmem]
  have hne : x ≠ .ref h.cells.size := fun heq => hfresh (heq ▸ hlocal)
  have hunheld : (h.extended (.int (.ofInt (h.positionAfter x x)))).Unheld h.cells.size := by
    intro b c hc
    rw [cells_extended] at hc
    split at hc
    · cases hc
      exact List.not_mem_nil
    · exact hac.unheld_size b c hc
  have hcount : (h.extended (.int (.ofInt (h.positionAfter x x)))).countAt h.cells.size = 1 :=
    countAt_eq (cells_extended h _ _ |>.trans (if_pos rfl))
  -- Neither release reaches the new position.
  have hf₁ := hf.setLocal i.toNatClampNeg (.ref h.cells.size)
  have hlt : i.toNatClampNeg < (V.locals.set i.toNatClampNeg (.ref h.cells.size)).length := by
    rw [List.length_set]
    exact (List.getElem?_eq_some_iff.1 hx).1
  rw [hasNext2_eq hf hi hi hx hx] at hok
  obtain ⟨_, mc₁, hok₁, hok⟩ := bind_eq_ok hok
  obtain ⟨h₁, hrel₁, rfl⟩ := onHeap_eq_ok hok₁
  obtain ⟨hunheld₁, hcount₁⟩ := hunheld.release hne hrel₁
  rw [closeEnumeration, if_pos hnext, bind_of_ok (writeLocal_shows hf₁ hi hlt _)] at hok
  obtain ⟨_, mc₂, hok₂, hok⟩ := bind_eq_ok hok
  obtain ⟨h₂, hrel₂, rfl⟩ := onHeap_eq_ok hok₂
  obtain ⟨hunheld₂, hcount₂⟩ := hunheld₁.release hne hrel₂
  obtain ⟨f', hpush, hf'⟩ := push_ok (h := h₂) (s := s) (v := .bool false)
    (hf₁.setLocal i.toNatClampNeg .null) hroom
  rw [hpush] at hok
  cases hok
  -- It is in no local, so that nobody can give it up.
  have hcount' := hac'.heap.counts h.cells.size
  have hvalues : .ref h.cells.size ∉ V'.values + owned := by
    rw [hac'.frame.values_eq hf', List.set_set]
    intro hmem
    refine hfresh ?_
    have hset (hm : .ref h.cells.size ∈ V.locals.set i.toNatClampNeg .null) : .ref h.cells.size ∈ V.locals :=
      (List.mem_or_eq_of_mem_set hm).resolve_right (by simp)
    simp only [View.values, Multiset.mem_add, Multiset.mem_coe, List.mem_append, List.mem_singleton,
      reduceCtorEq, or_false] at hmem ⊢
    exact hmem.imp_left (Or.imp_left (Or.imp_left hset))
  simp only at hcount'
  rw [hunheld₂.held, Multiset.count_eq_zero.2 hvalues, hcount₂, hcount₁, hcount] at hcount'
  exact absurd hcount' (by decide)

/-- Moving an enumeration on changes no local but its own, pushes a truth value and keeps all references
accounted, exactly if it is held by two locals or has a next position. -/
theorem hasNext2_accounts_iff (hac : mc.Accounts V owned) (hi : 0 ≤ i) (hj : 0 ≤ j)
    (hx : V.locals[i.toNatClampNeg]? = some x) (hold : V.locals[j.toNatClampNeg]? = some old)
    (hxb : x ≠ .unbound) (hob : old ≠ .unbound) (hroom : V.operands.length < V.capacity) :
    (∃ mc' L b, hasNext2 i j mc = .ok () mc' ∧
      mc'.Accounts { V with locals := L, operands := V.operands ++ [.bool b] } owned ∧
      L.length = V.locals.length ∧
      ∀ k, k ≠ i.toNatClampNeg → k ≠ j.toNatClampNeg → L[k]? = V.locals[k]?) ↔
    i ≠ j ∨ mc.heap.nextIndex x (mc.heap.toInt32 old).toInt ≠ 0 := by
  refine ⟨?_, hac.exists_hasNext2 hi hj hx hold hxb hob hroom⟩
  rintro ⟨mc', L, b, hok, hac', -⟩
  by_contra hboth
  obtain ⟨rfl, hnext⟩ : i = j ∧ mc.heap.nextIndex x (mc.heap.toInt32 old).toInt = 0 := by
    simpa using hboth
  obtain rfl : x = old := Option.some.inj (hx.symm.trans hold)
  exact hac.not_hasNext2 hi hx hroom hnext hok hac'

/-- A frame with an array without elements in its second local. -/
def Machine.emptyArray : Machine Unit where
  heap := { cells := #[⟨1, .array #[]⟩] }
  frame := { firstSlots := #[.undefined, .ref 0], secondSlots := #[.unbound] }
  host := ()

def View.emptyArray : View where
  capacity := 1
  global := .null
  method := {}
  jumps := 0
  locals := [.undefined, .ref 0]
  operands := []
  scope := []

theorem accounts_emptyArray : Machine.emptyArray.Accounts View.emptyArray 0 where
  frame := ⟨⟨rfl, rfl, rfl, rfl, by decide, rfl, by decide, by decide⟩, by decide, rfl, rfl, rfl, rfl⟩
  heap := accounted_single rfl rfl (by decide) fun a => by simp [View.values, View.emptyArray]

/-- The array is held by one local that is also its position. -/
theorem hasNext2_accounts_iff_emptyArray : Machine.emptyArray.Accounts View.emptyArray 0 ∧
    ¬∃ mc' L b, hasNext2 1 1 Machine.emptyArray = .ok () mc' ∧
      mc'.Accounts { View.emptyArray with locals := L, operands := View.emptyArray.operands ++ [.bool b] } 0 ∧
      L.length = View.emptyArray.locals.length ∧
      ∀ k, k ≠ (1 : Int32).toNatClampNeg → k ≠ (1 : Int32).toNatClampNeg →
        L[k]? = View.emptyArray.locals[k]? := by
  refine ⟨accounts_emptyArray, ?_⟩
  have harray : View.emptyArray.locals[(1 : Int32).toNatClampNeg]? = some (.ref 0) := rfl
  rw [hasNext2_accounts_iff accounts_emptyArray (by decide) (by decide) harray harray nofun nofun (by decide)]
  decide

end MethodJit
