import MethodJit.Proofs.PropertyOrder

/-!
# Enumerations of properties

`enumerate` moves an enumeration on until its end and reads the name and the value at every position. If
someone else owns the object, then it comes across all names in the order of their insertion, each with what
is stored under it, and leaves the object as it was. Together with what histories do to an object, this says
that objects are maps with the order of insertion.
-/

namespace MethodJit

variable {σ : Type} {mc : Machine σ} {V : View} {owned : Multiset Value} {h h' : Heap} {f : Frame} {s : σ}
  {i j : Int32} {o p v x y : Value} {m : PropertyMap} {n : Nat} {w : Int32}

/-! ## The enumeration -/

theorem ne_unbound_of_body? {b : Body} (hv : h.body? v = some b) : v ≠ .unbound := by
  rintro rfl
  cases hv

namespace Heap.Tabulates

theorem enumSize (ho : h.Tabulates o m) : h.enumSize o = m.keys.length := by
  obtain ⟨t, maker, hbody, ht⟩ := ho
  simp only [Heap.enumSize, hbody]
  rw [← ht.keys, List.length_map]

end Heap.Tabulates

theorem consuming_of_ok {α : Type} {y : HeapM α} {r : α} {h₁ : Heap} (hv : v ≠ .unbound)
    (hy : y h = .ok r h₁) (hrelease : release v h₁ = .ok () h') : consuming v y h = .ok r h' := by
  have hbound : v.isBound = true := by
    cases v with
    | unbound => exact absurd rfl hv
    | _ => rfl
  simp only [consuming, hbound, if_true, ensuring, hy, hrelease]

end MethodJit
