import Mathlib.Algebra.BigOperators.Group.Finset.Basic
import MethodJit.Proofs.Bond

/-!
# Counts of corresponding cells

The count of a cell can be read off the graph: it is the number of references to its node that live nodes
hold, and of those that are owned. Two heaps with one graph that own the same therefore agree on which
nodes are dead, and on all counts.
-/

namespace MethodJit

open Finset

variable {base : Nat} {G : Graph} {ψ ψ' : Naming} {owned : Multiset Value} {P : Multiset Link}
  {h h' : Heap} {a a' : Address} {c c' : Cell} {n : Nat} {v w : Value}

/-- The number of references to a node that the nodes outside `dead` hold. -/
def Graph.held (G : Graph) (dead : List Nat) (n : Nat) : Nat :=
  ∑ p ∈ range G.size, if p ∈ dead then 0 else ((G[p]?.map Shape.children).getD []).count (.node n)

theorem total_eq_sum {α : Type} (f : α → Nat) (l : List α) :
    Heap.total f l = ∑ i ∈ range l.length, (l[i]?.map f).getD 0 := by
  induction l with
  | nil => rfl
  | cons x l ih =>
    rw [Heap.total, ih, List.length_cons, sum_range_succ']
    simp [Nat.add_comm]

/-- The nodes that died, as a heap has them. -/
def Represents.Dead (ψ : Naming) (h : Heap) (dead : List Nat) : Prop :=
  ∀ (a : Address) c n, h.cells[a]? = some c → ψ a = .node n → (c.count = 0 ↔ n ∈ dead)

namespace Represents

/-- A reference that is alive and has the name of a cell is one to that cell. -/
theorem eq_of_name (hr : Represents G ψ owned h) (ha : a < h.cells.size) (hn : ψ a = .node n)
    (hv : h.Live v) (hvn : ψ.of v = .node n) : v = .ref a := by
  cases v with
  | ref b =>
    obtain ⟨d, hd, -⟩ := hv
    rw [hr.injective b a n (Array.getElem?_eq_some_iff.1 hd).1 ha hvn hn]
  | _ => cases hvn

theorem count_names (hr : Represents G ψ owned h) (ha : a < h.cells.size) (hn : ψ a = .node n)
    {s : Multiset Value} (hs : ∀ v ∈ s, v ≠ .unbound → h.Live v) :
    (s.map ψ.of).count (.node n) = s.count (.ref a) := by
  induction s using Multiset.induction_on with
  | empty => rfl
  | cons v s ih =>
    have hrest := ih fun w hw => hs w (Multiset.mem_cons_of_mem hw)
    rw [Multiset.map_cons, Multiset.count_cons, Multiset.count_cons, hrest]
    have hiff : Sym.node n = ψ.of v ↔ Value.ref a = v := by
      constructor
      · intro heq
        have hbound : v ≠ .unbound := by
          rintro rfl
          cases heq
        exact (hr.eq_of_name ha hn (hs v (Multiset.mem_cons_self v s) hbound) heq.symm).symm
      · rintro rfl
        exact hn.symm
    simp only [hiff]

/-- What a cell holds of another one, read off the graph. -/
theorem held_cell (hr : Represents G ψ owned h) {dead : List Nat} (hdead : Dead ψ h dead)
    (ha : a < h.cells.size) (hn : ψ a = .node n) {b : Address} {d : Cell} {p : Nat}
    (hd : h.cells[b]? = some d) (hp : ψ b = .node p) :
    d.held a = if p ∈ dead then 0 else ((G[p]?.map Shape.children).getD []).count (.node n) := by
  by_cases hlive : d.count = 0
  · rw [if_pos ((hdead b d p hd hp).1 hlive), Cell.held, if_pos hlive]
  · rw [if_neg (mt (hdead b d p hd hp).2 hlive), Cell.held_of_ne hlive,
      hr.shapes b d p hd hlive hp, Option.map_some, Option.getD_some, Body.children_shape]
    have hcount := hr.count_names ha hn (s := ↑d.body.children) fun v hv _ =>
      hr.live_of_child hd hlive (Multiset.mem_coe.1 hv)
    rw [Multiset.map_coe, Multiset.coe_count, Multiset.coe_count] at hcount
    exact hcount.symm

/-- The references to a cell that other cells hold are those that the graph tells. -/
theorem held_eq (hr : Represents G ψ owned h) {dead : List Nat} (hdead : Dead ψ h dead)
    (ha : a < h.cells.size) (hn : ψ a = .node n) : h.held a = Graph.held G dead n := by
  rw [Heap.held, total_eq_sum, Graph.held, Array.length_toList]
  -- The cells that have nodes are in bijection with the nodes; the others hold nothing.
  have hcell (b : Address) (hb : b < h.cells.size) : h.cells.toList[b]? = some h.cells[b] := by
    rw [Array.getElem?_toList, Array.getElem?_eq_getElem hb]
  have hnode (p : Nat) (hp : p ∈ range G.size) : ∃ b, b < h.cells.size ∧ ψ b = .node p :=
    hr.onto p (mem_range.1 hp)
  symm
  refine sum_bij_ne_zero (fun p hp _ => (hnode p hp).choose) (fun p hp _ => ?_)
    (fun p hp _ q hq _ heq => ?_) (fun b hb hne => ?_) (fun p hp _ => ?_)
  · exact mem_range.2 (hnode p hp).choose_spec.1
  · have hpn := (hnode p hp).choose_spec.2
    rw [heq, (hnode q hq).choose_spec.2] at hpn
    exact (Sym.node.inj hpn).symm
  · have hlt := mem_range.1 hb
    rw [hcell b hlt, Option.map_some, Option.getD_some] at hne
    have hd := Array.getElem?_eq_getElem hlt
    have hnamed := hr.named b _ hd
    cases hψ : ψ b with
    | node p =>
      have hp : p ∈ range G.size := mem_range.2 (hr.node_lt hlt hψ)
      refine ⟨p, hp, ?_, ?_⟩
      · rwa [← hr.held_cell hdead ha hn hd hψ]
      · exact hr.injective _ b p (hnode p hp).choose_spec.1 hlt (hnode p hp).choose_spec.2 hψ
    | boxed body =>
      rw [hψ] at hnamed
      have hnone := Body.children_of_isPrimitive (Body.isPrimitive_of_isInt hnamed.2)
      exact absurd (by simp [Cell.held, hnone]) hne
    | _ =>
      rw [hψ] at hnamed
      exact hnamed.elim
  · obtain ⟨hlt, hp⟩ := (hnode p hp).choose_spec
    rw [hcell _ hlt, Option.map_some, Option.getD_some,
      hr.held_cell hdead ha hn (Array.getElem?_eq_getElem hlt) hp]

/-- The count of a cell, read off the graph. -/
theorem count_eq (hr : Represents G ψ owned h) {dead : List Nat} (hdead : Dead ψ h dead)
    (hc : h.cells[a]? = some c) (hn : ψ a = .node n) :
    c.count = Graph.held G dead n + (owned.map ψ.of).count (.node n) := by
  have ha := (Array.getElem?_eq_some_iff.1 hc).1
  rw [← countAt_eq hc, hr.accounted.counts a, hr.held_eq hdead ha hn,
    hr.count_names ha hn fun v hv hbound => hr.live_of_mem hv hbound]

end Represents

/-- The link is in the hands of both runs. -/
def Link.Shared : Link → Prop
  | .both _ _ => True
  | _ => False

/-- Runs that share all links own the same nodes. -/
theorem count_node_eq (hP : ∀ l ∈ P, l.Shared) (hagree : ∀ l ∈ P, l.Agrees ψ ψ') (n : Nat) :
    ((lefts P).map ψ.of).count (.node n) = ((rights P).map ψ'.of).count (.node n) := by
  induction P using Multiset.induction_on with
  | empty => rfl
  | cons l P ih =>
    have hrest := ih (fun k hk => hP k (Multiset.mem_cons_of_mem hk))
      fun k hk => hagree k (Multiset.mem_cons_of_mem hk)
    have hshared := hP l (Multiset.mem_cons_self l P)
    have hl := hagree l (Multiset.mem_cons_self l P)
    rw [← Multiset.singleton_add, lefts_add, rights_add, Multiset.map_add, Multiset.map_add,
      Multiset.count_add, Multiset.count_add, hrest, lefts_singleton, rights_singleton]
    congr 1
    cases l with
    | both x y =>
      have hsame := hl.1
      cases x <;> cases y <;>
        simp_all [Link.lefts, Link.rights, Item.refs, Item.sym, Multiset.count_singleton]
      simp [← hsame]
    | _ => exact hshared.elim

namespace Bond

/-- What is dead on the left is dead on the right. -/
theorem dead_subset (hb : Bond base G ψ ψ' P h h') (hP : ∀ l ∈ P, l.Shared) {dead dead' : List Nat}
    (hdead : Represents.Dead ψ h dead) (hlt : ∀ n ∈ dead, n < G.size)
    (hdead' : Represents.Dead ψ' h' dead') {D : List Nat} (hD : ∀ n ∈ D, n ∈ dead)
    (hburied : Buried G D) : ∀ n ∈ D, n ∈ dead' := by
  induction D with
  | nil => exact fun _ hn => (List.not_mem_nil hn).elim
  | cons n D ih =>
    obtain ⟨hn, hD⟩ := List.forall_mem_cons.1 hD
    have hrest := ih hD hburied.2
    refine List.forall_mem_cons.2 ⟨?_, hrest⟩
    obtain ⟨a, ha, han⟩ := hb.left.onto n (hlt n hn)
    obtain ⟨a', ha', han'⟩ := hb.right.onto n (hlt n hn)
    have hc := Array.getElem?_eq_getElem ha
    have hc' := Array.getElem?_eq_getElem ha'
    have hcount := hb.left.count_eq hdead hc han
    rw [(hdead a _ n hc han).2 hn] at hcount
    have hcount' := hb.right.count_eq hdead' hc' han'
    -- All that holds the node has died before, so that nothing holds it on the right.
    have hheld : Graph.held G dead' n = 0 := by
      refine sum_eq_zero fun p hp => ?_
      split
      · rfl
      · rename_i hlive
        refine List.count_eq_zero.2 fun hm => hlive (hrest p ?_)
        cases hs : G[p]? with
        | none => simp [hs] at hm
        | some s => exact hburied.1 p s hs (by simpa [hs] using hm)
    refine (hdead' a' _ n hc' han').1 ?_
    rw [hcount', hheld, ← count_node_eq hP hb.agrees n]
    omega

/-- Cells with one node have the same count. -/
theorem count_eq (hb : Bond base G ψ ψ' P h h') (hP : ∀ l ∈ P, l.Shared)
    (hc : h.cells[a]? = some c) (hn : ψ a = .node n) (hc' : h'.cells[a']? = some c')
    (hn' : ψ' a' = .node n) : c.count = c'.count := by
  obtain ⟨dead, hburied, hlt, hdead⟩ := hb.left.buried
  obtain ⟨dead', hburied', hlt', hdead'⟩ := hb.right.buried
  have hsub := hb.dead_subset hP hdead hlt hdead' (fun _ hn => hn) hburied
  have hsub' : ∀ n ∈ dead', n ∈ dead := by
    refine hb.symm.dead_subset (fun l hl => ?_) hdead' hlt' hdead (fun _ hn => hn) hburied'
    obtain ⟨k, hk, rfl⟩ := Multiset.mem_map.1 hl
    have hshared := hP k hk
    cases k <;> exact hshared
  have hheld : Graph.held G dead n = Graph.held G dead' n := by
    refine sum_congr rfl fun p _ => ?_
    have hiff : p ∈ dead ↔ p ∈ dead' := ⟨hsub p, hsub' p⟩
    simp only [hiff]
  rw [hb.left.count_eq hdead hc hn, hb.right.count_eq hdead' hc' hn', hheld,
    count_node_eq hP hb.agrees n]

/-- Cells with one node hold the same, up to names. -/
theorem shape_eq (hb : Bond base G ψ ψ' P h h') (hP : ∀ l ∈ P, l.Shared)
    (hc : h.cells[a]? = some c) (hn : ψ a = .node n) (hc' : h'.cells[a']? = some c')
    (hn' : ψ' a' = .node n) : c.body.shape ψ = c'.body.shape ψ' := by
  have hcount := hb.count_eq hP hc hn hc' hn'
  by_cases h0 : c.count = 0
  · have hleft := hb.left.remains a c n hc h0 hn
    rw [hb.right.remains a' c' n hc' (hcount ▸ h0) hn'] at hleft
    exact (Option.some.inj hleft).symm
  · have hleft := hb.left.shapes a c n hc h0 hn
    rw [hb.right.shapes a' c' n hc' (hcount ▸ h0) hn'] at hleft
    exact (Option.some.inj hleft).symm

end Bond

end MethodJit
