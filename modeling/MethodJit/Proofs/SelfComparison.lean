import MethodJit.Proofs.Properties

/-!
# A heap and itself

What is proved of two runs that are compared holds of a run that is compared with itself. Every reference is
linked with itself then, and the accounts of a single run can be read off.
-/

namespace MethodJit

variable {K : Origin} {P : Multiset Link} {h h' : Heap} {owned : Multiset Value}

/-- The links of a run with itself. -/
def ownLinks (owned : Multiset Value) : Multiset Link := owned.map fun v => Link.pair v v

@[simp] theorem lefts_ownLinks (owned : Multiset Value) : lefts (ownLinks owned) = owned := by
  rw [lefts, ownLinks, Multiset.bind_map]
  exact (Multiset.bind_singleton owned id).trans (Multiset.map_id owned)

@[simp] theorem rights_ownLinks (owned : Multiset Value) : rights (ownLinks owned) = owned := by
  rw [rights, ownLinks, Multiset.bind_map]
  exact (Multiset.bind_singleton owned id).trans (Multiset.map_id owned)

theorem ownLinks_add (owned owned' : Multiset Value) : ownLinks (owned + owned') = ownLinks owned + ownLinks owned' :=
  Multiset.map_add _ owned owned'

theorem mem_ownLinks {v : Value} (hv : v ∈ owned) : Link.pair v v ∈ ownLinks owned := Multiset.mem_map_of_mem _ hv

/-- Values in pairs with themselves. -/
def twice (vs : List Value) : List (Value × Value) := vs.map fun v => (v, v)

@[simp] theorem map_fst_twice (vs : List Value) : (twice vs).map (·.1) = vs := by
  simp [twice, Function.comp_def]

@[simp] theorem map_snd_twice (vs : List Value) : (twice vs).map (·.2) = vs := by
  simp [twice, Function.comp_def]

theorem mem_twice {vs : List Value} (hvs : ∀ v ∈ vs, v ∈ owned) {p : Value × Value} (hp : p ∈ twice vs) :
    Link.pair p.1 p.2 ∈ ownLinks owned := by
  obtain ⟨v, hv, rfl⟩ := List.mem_map.1 hp
  exact mem_ownLinks (hvs v hv)

/-- Where a run starts. -/
def Heap.origin (h : Heap) : Origin := ⟨h.cells.size, h.abandoned⟩

theorem Accounted.bond (hac : Accounted owned h) (hbound : .unbound ∉ owned) :
    Bond h.origin.size h.graph .node .node (ownLinks owned) h h := by
  refine ⟨?_, ?_, ?_, Nat.le_refl _, Nat.le_refl _, fun _ _ => ⟨rfl, rfl⟩⟩
  · rw [lefts_ownLinks]
    exact hac.represents
  · rw [rights_ownLinks]
    exact hac.represents
  · intro l hl
    obtain ⟨v, hv, rfl⟩ := Multiset.mem_map.1 hl
    refine ⟨rfl, fun hun => ?_⟩
    cases v with
    | unbound => exact hbound hv
    | _ => cases hun

theorem Accounted.linked (hac : Accounted owned h) (hbound : .unbound ∉ owned) :
    Linked h.origin (ownLinks owned) h h := by
  refine ⟨h.graph, .node, .node, [], ?_, rfl, rfl⟩
  have hempty : pairLinks [] + ownLinks owned = ownLinks owned := zero_add _
  rw [hempty]
  exact hac.bond hbound

/-- Apart from what was abandoned, everything is accounted for. -/
theorem Linked.accounted (hl : Linked K P h h') :
    ∃ A : List Value, h.abandoned = A ++ K.abandoned ∧ Accounted (↑A + lefts P) h ∧
      .unbound ∉ (↑A : Multiset Value) + lefts P := by
  obtain ⟨G, ψ, ψ', A, hb, hA, -⟩ := hl
  have hac := hb.left.accounted
  have hbound := hb.unbound_notMem_lefts
  rw [lefts_add, lefts_pairLinks] at hac hbound
  exact ⟨A.map (·.1), hA, hac, hbound⟩

/-- What becomes of the references in an action that is compared with itself. -/
theorem Leads.accounted {α : Type} {R : α → α → Multiset Link → Prop} {r : EStateM.Result Fault Heap α}
    {a : α} (hr : Leads K (ownLinks owned) R h h r r) (hok : r = .ok a h') :
    ∃ Q, R a a Q ∧ Accounted (lefts Q + owned) h' ∧ .unbound ∉ lefts Q + owned ∧ h'.abandoned = h.abandoned := by
  rcases hr with ⟨a₁, a₂, h₁, h₂, hleft, hright, hsame, -, Q, hQ, G, ψ, ψ', hb⟩ | ⟨h₁, hleft, -⟩
  · obtain ⟨rfl, rfl⟩ : a₁ = a ∧ h₁ = h' := by
      rw [hok] at hleft
      cases hleft
      exact ⟨rfl, rfl⟩
    obtain rfl : a₂ = a₁ := by
      rw [hok] at hright
      cases hright
      rfl
    have hac := hb.left.accounted
    have hbound := hb.unbound_notMem_lefts
    rw [lefts_add, lefts_ownLinks] at hac hbound
    exact ⟨Q, hQ, hac, hbound, hsame⟩
  · rw [hok] at hleft
    cases hleft

end MethodJit
