import Mathlib.Data.Fintype.EquivFin
import Mathlib.Order.WellFounded
import MethodJit.Proofs.ReadingHeaps

/-!
# Arrays that contain themselves

The text of an array is made of the texts of its elements, so that it is never finished for an array that
contains itself, or leads to such an array through its elements. These are the only values without a text.
-/

namespace MethodJit

variable {h h' : Heap} {v w : Value} {α β : Type}

/-! ## Elements of elements -/

/-- The second value is an element of the first one. -/
def Heap.Nests (h : Heap) (v w : Value) : Prop := ∃ elems, h.body? v = some (.array elems) ∧ w ∈ elems

/-- The value contains itself, or leads through elements to an array that does. -/
def Heap.Circular (h : Heap) (v : Value) : Prop :=
  ∃ w, Relation.ReflTransGen h.Nests v w ∧ Relation.TransGen h.Nests w w

namespace Heap.Circular

/-- A circular value is an array with a circular element. -/
theorem exists_nests (hv : h.Circular v) : ∃ w, h.Nests v w ∧ h.Circular w := by
  obtain ⟨z, hvz, hz⟩ := hv
  rcases Relation.ReflTransGen.cases_head hvz with rfl | ⟨w, hvw, hwz⟩
  · obtain ⟨w, hvw, hwz⟩ := Relation.TransGen.head'_iff.1 hz
    exact ⟨w, hvw, v, hwz, hz⟩
  · exact ⟨w, hvw, z, hwz, hz⟩

theorem exists_array (hv : h.Circular v) : ∃ elems, h.body? v = some (.array elems) := by
  obtain ⟨w, ⟨elems, hbody, -⟩, -⟩ := hv.exists_nests
  exact ⟨elems, hbody⟩

theorem exists_ref (hv : h.Circular v) : ∃ a, v = .ref a := by
  obtain ⟨elems, hbody⟩ := hv.exists_array
  cases v with
  | ref a => exact ⟨a, rfl⟩
  | _ => cases hbody

/-- Arrays that keep their elements, and all that these lead to, stay circular. -/
theorem of_closed {p : Value → Prop} (hstep : ∀ x y, p x → h.Nests x y → h'.Nests x y ∧ p y) (hpv : p v)
    (hv : h.Circular v) : h'.Circular v := by
  have hpath {x y : Value} (hx : p x) (hxy : Relation.ReflTransGen h.Nests x y) :
      Relation.ReflTransGen h'.Nests x y ∧ p y := by
    induction hxy with
    | refl => exact ⟨.refl, hx⟩
    | tail _ hyz ih =>
      obtain ⟨hyz', hz⟩ := hstep _ _ ih.2 hyz
      exact ⟨ih.1.tail hyz', hz⟩
  obtain ⟨w, hvw, hww⟩ := hv
  obtain ⟨z, hwz, hzw⟩ := Relation.TransGen.tail'_iff.1 hww
  obtain ⟨hvw', hpw⟩ := hpath hpv hvw
  obtain ⟨hwz', hpz⟩ := hpath hpw hwz
  exact ⟨w, hvw', .tail' hwz' (hstep _ _ hpz hzw).1⟩

end Heap.Circular

/-! ## Texts that are not found -/

theorem mapM_error {f : α → Except Fault β} {l : List α}
    (hf : ∀ x ∈ l, (∃ b, f x = .ok b) ∨ f x = .error .endless) {x : α} (hx : x ∈ l)
    (herr : f x = .error .endless) : l.mapM f = .error .endless := by
  induction l with
  | nil => cases hx
  | cons y l ih =>
    have hrest : ∀ z ∈ l, (∃ b, f z = .ok b) ∨ f z = .error .endless := fun z hz =>
      hf z (List.mem_cons_of_mem y hz)
    rw [List.mapM_cons]
    rcases hf y List.mem_cons_self with ⟨b, hok⟩ | hend
    · rcases List.mem_cons.1 hx with rfl | hx
      · rw [hok] at herr
        cases herr
      · rw [hok, ih hrest hx]
        rfl
    · rw [hend]
      rfl

theorem exists_of_mapM_error {f : α → Except Fault β} {l : List α} {e : Fault} (herr : l.mapM f = .error e) :
    ∃ x ∈ l, f x = .error e := by
  induction l with
  | nil => cases herr
  | cons y l ih =>
    rw [List.mapM_cons] at herr
    cases hy : f y with
    | error e' =>
      rw [hy] at herr
      cases herr
      exact ⟨y, List.mem_cons_self, hy⟩
    | ok b =>
      cases hl : l.mapM f with
      | error e' =>
        rw [hy, hl] at herr
        cases herr
        obtain ⟨x, hx, hfx⟩ := ih hl
        exact ⟨x, List.mem_cons_of_mem y hx, hfx⟩
      | ok bs =>
        rw [hy, hl] at herr
        cases herr

theorem Heap.Bound.elemText_cases (hbound : h.Bound) {elems : Array Value}
    (hbody : h.body? v = some (.array elems)) (d : Nat) (hw : w ∈ elems) :
    (∃ s, h.elemText d w = .ok s) ∨ h.elemText d w = .error .endless := by
  have hne : w ≠ .unbound := by
    rintro rfl
    exact hbound.notMem hbody (Array.mem_toList_iff.2 hw)
  cases w with
  | unbound => exact absurd rfl hne
  | undefined => exact .inl ⟨"", rfl⟩
  | null => exact .inl ⟨"", rfl⟩
  | bool b => exact hbound.textWithin_cases (.bool b) d
  | ref a => exact hbound.textWithin_cases (.ref a) d

/-- However deep the arrays are followed, the text of a circular value is not found. -/
theorem Heap.Bound.textWithin_circular (hbound : h.Bound) (hv : h.Circular v) (d : Nat) :
    h.textWithin d v = .error .endless := by
  induction d generalizing v with
  | zero => rfl
  | succ d ih =>
    obtain ⟨a, rfl⟩ := hv.exists_ref
    obtain ⟨w, ⟨elems, hbody, hw⟩, hcirc⟩ := hv.exists_nests
    obtain ⟨b, rfl⟩ := hcirc.exists_ref
    have herr : h.elemText d (.ref b) = .error .endless := ih hcirc
    rw [Heap.textWithin_array hbody, mapM_error (fun x hx => hbound.elemText_cases hbody d
      (Array.mem_toList_iff.1 hx)) (Array.mem_toList_iff.2 hw) herr]
    rfl

/-! ## Values without a text -/

/-- A value without a text has an element without a text. -/
theorem Heap.exists_nests_of_endless (hv : h.toText v = .error .endless) :
    ∃ w, h.Nests v w ∧ h.toText w = .error .endless := by
  by_cases harray : ∃ a elems, v = .ref a ∧ h.body? v = some (.array elems)
  · obtain ⟨a, elems, rfl, hbody⟩ := harray
    rw [← Heap.textWithin_eq_toText (Nat.le_succ (h.cells.size + 1)), Heap.textWithin_array hbody] at hv
    have herr : elems.toList.mapM (h.elemText (h.cells.size + 1)) = .error .endless := by
      cases hparts : elems.toList.mapM (h.elemText (h.cells.size + 1)) with
      | error e =>
        rw [hparts] at hv
        cases hv
        rfl
      | ok parts =>
        rw [hparts] at hv
        cases hv
    obtain ⟨w, hw, hwerr⟩ := exists_of_mapM_error herr
    refine ⟨w, ⟨elems, hbody, Array.mem_toList_iff.1 hw⟩, ?_⟩
    cases w with
    | unbound => cases hwerr
    | undefined => cases hwerr
    | null => cases hwerr
    | bool b => exact hwerr
    | ref b => exact hwerr
  · refine absurd hv (Heap.textWithin_flat_ne (fun a elems hva hbody => harray ⟨a, elems, hva, hbody⟩) _)

theorem Heap.lt_size_of_endless {a : Address} (hv : h.toText (.ref a) = .error .endless) : a < h.cells.size := by
  obtain ⟨w, ⟨elems, hbody, -⟩, -⟩ := Heap.exists_nests_of_endless hv
  by_contra hle
  have hnone : h.cells[a]? = none := Array.getElem?_eq_none (Nat.le_of_not_lt hle)
  rw [Heap.body?, Heap.cell?, hnone] at hbody
  cases hbody

/-- Whoever can always go on among finitely many places comes somewhere twice. -/
theorem exists_cycle [Finite α] {r : α → α → Prop} (hr : ∀ x, ∃ y, r x y) (x : α) :
    ∃ y, Relation.ReflTransGen r x y ∧ Relation.TransGen r y y := by
  by_contra hnone
  let s : {y // Relation.ReflTransGen r x y} → {y // Relation.ReflTransGen r x y} → Prop := fun y z =>
    Relation.TransGen r z.1 y.1
  have htrans : IsTrans _ s := ⟨fun _ _ _ hab hbc => hbc.trans hab⟩
  have hirrefl : Std.Irrefl s := ⟨fun y hy => hnone ⟨y.1, y.2, hy⟩⟩
  -- A place from which the others that are still reached are none.
  obtain ⟨y, -, hmin⟩ := (Finite.wellFounded_of_trans_of_irrefl s).has_min Set.univ ⟨⟨x, .refl⟩, trivial⟩
  obtain ⟨z, hz⟩ := hr y.1
  exact hmin ⟨z, y.2.tail hz⟩ trivial (.single hz)

/-- The cells without a text are finitely many, and each of them has one among its elements. -/
theorem Heap.circular_of_endless (hv : h.toText v = .error .endless) : h.Circular v := by
  let E := {w : Value // h.toText w = .error .endless}
  have href (w : E) : ∃ a < h.cells.size, w.1 = .ref a := by
    obtain ⟨x, ⟨elems, hbody, -⟩, -⟩ := Heap.exists_nests_of_endless w.2
    rcases w with ⟨_ | _ | _ | _ | a, hw⟩
    case ref => exact ⟨a, Heap.lt_size_of_endless hw, rfl⟩
    all_goals cases hbody
  have hfinite : Finite E := by
    choose f hlt hf using href
    refine Finite.of_injective (fun w : E => (⟨f w, hlt w⟩ : Fin h.cells.size)) fun x y hxy => ?_
    have heq : f x = f y := congrArg Fin.val hxy
    exact Subtype.ext (by rw [hf x, hf y, heq])
  have hnext (x : E) : ∃ y : E, h.Nests x.1 y.1 := by
    obtain ⟨w, hxw, hw⟩ := Heap.exists_nests_of_endless x.2
    exact ⟨⟨w, hw⟩, hxw⟩
  obtain ⟨y, hvy, hyy⟩ := exists_cycle hnext ⟨v, hv⟩
  exact ⟨y.1, hvy.lift Subtype.val fun _ _ => id, hyy.lift Subtype.val fun _ _ => id⟩

/-- The values without a text are those that lead to an array that contains itself. -/
theorem Heap.Bound.exists_toText_iff (hbound : h.Bound) (v : Value) :
    (∃ s, h.toText v = .ok s) ↔ ¬h.Circular v := by
  refine ⟨fun ⟨s, hs⟩ hv => ?_, fun hv => (hbound.textWithin_cases v _).resolve_right fun herr => ?_⟩
  · have herr : h.toText v = .error .endless := hbound.textWithin_circular hv _
    rw [hs] at herr
    cases herr
  · exact hv (Heap.circular_of_endless herr)

end MethodJit
