import Mathlib.Data.Multiset.AddSub
import MethodJit.Heap.Property

/-!
# Accounted heaps

A heap is accounted if the count of every cell is the number of references to it: those that cells with
a count hold, and those that are owned by someone outside the heap. Cells without references are
empty, what cells hold is bound, and the constructors of objects are cells. The lemmas say what the
changes of single cells do to the references that are owned.
-/

namespace MethodJit

variable {h : Heap} {owned owned' : Multiset Value} {a b : Address} {c d : Cell}

/-- The count at an address, which is zero if there is no cell. -/
def Heap.countAt (h : Heap) (a : Address) : Nat := ((h.cells[a]?).map Cell.count).getD 0

/-- The number of references to an address that a cell holds. A cell without references holds none. -/
def Cell.held (a : Address) (c : Cell) : Nat :=
  if c.count = 0 then 0 else c.body.children.count (.ref a)

theorem Cell.held_of_ne (hc : c.count ≠ 0) (a : Address) :
    c.held a = c.body.children.count (.ref a) := if_neg hc

theorem Cell.held_zero (body : Body) (a : Address) : Cell.held a ⟨0, body⟩ = 0 := rfl

/-- The number of references to an address that the cells hold. -/
def Heap.held (h : Heap) (a : Address) : Nat := Heap.total (Cell.held a) h.cells.toList

/-- The function that made an object. -/
def Body.maker? : Body → Option Address
  | .object _ constructor => constructor
  | _ => none

structure Accounted (owned : Multiset Value) (h : Heap) : Prop where
  counts : ∀ a, h.countAt a = h.held a + owned.count (.ref a)
  empty : ∀ (a : Address) c, h.cells[a]? = some c → c.count = 0 → c.body.children = []
  bound : ∀ (a : Address) c, h.cells[a]? = some c → .unbound ∉ c.body.children
  makers : ∀ (a : Address) c, h.cells[a]? = some c → ∀ k, c.body.maker? = some k → k < h.cells.size

/-- What all cells hold is bound. -/
def Heap.Bound (h : Heap) : Prop := ∀ (a : Address) c, h.cells[a]? = some c → .unbound ∉ c.body.children

theorem Heap.Bound.notMem (hbound : h.Bound) {v : Value} {b : Body} (hbody : h.body? v = some b) :
    .unbound ∉ b.children := by
  cases v with
  | ref a =>
    cases hc : h.cells[a]? with
    | none => simp [Heap.body?, Heap.cell?, hc] at hbody
    | some c =>
      obtain rfl : c.body = b := by simpa [Heap.body?, Heap.cell?, hc] using hbody
      exact hbound a c hc
  | _ => cases hbody

theorem Accounted.unbound_notMem (hac : Accounted owned h) {v : Value} {b : Body} (hbody : h.body? v = some b) :
    .unbound ∉ b.children := Heap.Bound.notMem hac.bound hbody

theorem Body.maker?_emptied (b : Body) : b.emptied.maker? = b.maker? := by
  cases b <;> rfl

/-! ## Changes of one cell -/

theorem size_setCell (h : Heap) (a : Address) (c : Cell) :
    (h.setCell a c).cells.size = h.cells.size := by
  simp [Heap.setCell]

theorem cells_setCell (hc : h.cells[a]? = some c) (d : Cell) (b : Address) :
    (h.setCell a d).cells[b]? = if b = a then some d else h.cells[b]? := by
  have ha := (Array.getElem?_eq_some_iff.1 hc).1
  simp only [Heap.setCell, Array.getElem?_setIfInBounds]
  by_cases hb : b = a
  · simp [hb, ha]
  · simp [hb, Ne.symm hb]

theorem held_setCell (hc : h.cells[a]? = some c) (d : Cell) (b : Address) :
    (h.setCell a d).held b + c.held b = h.held b + d.held b := by
  simp only [Heap.held, Heap.setCell, Array.toList_setIfInBounds]
  exact Heap.total_set (Cell.held b) h.cells.toList a c d (by simpa using hc)

theorem total_append {α : Type} (f : α → Nat) (l l' : List α) :
    Heap.total f (l ++ l') = Heap.total f l + Heap.total f l' := by
  induction l with
  | nil => simp [Heap.total]
  | cons x l ih =>
    simp only [List.cons_append, Heap.total, ih]
    omega

theorem le_held (hc : h.cells[a]? = some c) (b : Address) : c.held b ≤ h.held b := by
  have := held_setCell hc ⟨0, c.body⟩ b
  rw [Cell.held_zero] at this
  omega

theorem countAt_eq (hc : h.cells[a]? = some c) : h.countAt a = c.count := by
  simp [Heap.countAt, hc]

theorem lt_size_of_countAt (ha : h.countAt a ≠ 0) : a < h.cells.size := by
  by_contra hlt
  exact ha (by simp [Heap.countAt, Array.getElem?_eq_none (Nat.not_lt.1 hlt)])

/-- Another cell at an address, and references that changed hands. -/
theorem Accounted.setCell (hac : Accounted owned h) (hc : h.cells[a]? = some c)
    (hcount : ∀ b, owned'.count (.ref b) + d.held b + (if b = a then c.count else 0) =
      owned.count (.ref b) + c.held b + (if b = a then d.count else 0))
    (hempty : d.count = 0 → d.body.children = []) (hbound : .unbound ∉ d.body.children)
    (hmaker : d.body.maker? = c.body.maker?) : Accounted owned' (h.setCell a d) := by
  refine ⟨fun b => ?_, fun b e he => ?_, fun b e he => ?_, fun b e he => ?_⟩
  · have hheld := held_setCell hc d b
    have hold := hac.counts b
    have hnew := hcount b
    simp only [Heap.countAt, cells_setCell hc] at hold ⊢
    by_cases hb : b = a
    · subst hb
      simp only [hc, Option.map_some, Option.getD_some, if_true] at hold hnew ⊢
      omega
    · simp only [hb, if_false] at hnew ⊢
      omega
  · rw [cells_setCell hc] at he
    split at he
    · cases he
      exact hempty
    · exact hac.empty b e he
  · rw [cells_setCell hc] at he
    split at he
    · cases he
      exact hbound
    · exact hac.bound b e he
  · rw [size_setCell]
    rw [cells_setCell hc] at he
    split at he
    · cases he
      rw [hmaker]
      exact hac.makers a c hc
    · exact hac.makers b e he

theorem Accounted.cell_of_mem (hac : Accounted owned h) (ha : .ref a ∈ owned) :
    ∃ c, h.cells[a]? = some c ∧ c.count ≠ 0 := by
  have hcount := hac.counts a
  have hpos := Multiset.count_pos.2 ha
  have hlt : a < h.cells.size := lt_size_of_countAt (by omega)
  refine ⟨h.cells[a], Array.getElem?_eq_getElem hlt, ?_⟩
  rw [countAt_eq (Array.getElem?_eq_getElem hlt)] at hcount
  omega

theorem Accounted.cell_of_child (hac : Accounted owned h) (hc : h.cells[a]? = some c)
    (hlive : c.count ≠ 0) (hb : .ref b ∈ c.body.children) :
    ∃ d, h.cells[b]? = some d ∧ d.count ≠ 0 := by
  have hcount := hac.counts b
  have hle := le_held hc b
  have hpos := List.count_pos_iff.2 hb
  rw [Cell.held_of_ne hlive] at hle
  have hlt : b < h.cells.size := lt_size_of_countAt (by omega)
  refine ⟨h.cells[b], Array.getElem?_eq_getElem hlt, ?_⟩
  rw [countAt_eq (Array.getElem?_eq_getElem hlt)] at hcount
  omega

theorem count_ref_add (a b : Address) (owned : Multiset Value) :
    ({Value.ref a} + owned : Multiset Value).count (.ref b) =
      owned.count (.ref b) + if b = a then 1 else 0 := by
  rw [Multiset.count_add, Multiset.count_singleton]
  simp only [Value.ref.injEq, Nat.add_comm]

/-- One more reference to a cell is owned. -/
theorem Accounted.retain (hac : Accounted owned h) (hc : h.cells[a]? = some c)
    (hlive : c.count ≠ 0) :
    Accounted ({Value.ref a} + owned) (h.setCell a { c with count := c.count + 1 }) := by
  refine hac.setCell hc (fun b => ?_) (fun h0 => absurd h0 (Nat.succ_ne_zero _)) (hac.bound a c hc) rfl
  rw [count_ref_add]
  rw [Cell.held_of_ne hlive, Cell.held_of_ne (Nat.succ_ne_zero _)]
  split <;> simp only <;> omega

/-- One of several references to a cell is given up. -/
theorem Accounted.release (hac : Accounted ({Value.ref a} + owned) h) {n : Nat} {body : Body}
    (hc : h.cells[a]? = some ⟨n + 2, body⟩) : Accounted owned (h.setCell a ⟨n + 1, body⟩) := by
  have hbound : Value.unbound ∉ body.children := hac.bound a _ hc
  refine hac.setCell hc (fun b => ?_) (fun h0 => absurd h0 (Nat.succ_ne_zero _)) hbound rfl
  rw [count_ref_add]
  rw [Cell.held_of_ne (Nat.succ_ne_zero _), Cell.held_of_ne (Nat.succ_ne_zero _)]
  split <;> simp only <;> omega

/-- The last reference to a cell is given up, and the references that it held are owned then. -/
theorem Accounted.empty_cell (hac : Accounted ({Value.ref a} + owned) h) {body : Body}
    (hc : h.cells[a]? = some ⟨1, body⟩) :
    Accounted (↑body.children + owned) (h.setCell a ⟨0, body.emptied⟩) := by
  have hbound : Value.unbound ∉ body.emptied.children := by
    simp [Body.children_emptied]
  refine hac.setCell hc (fun b => ?_) (fun _ => Body.children_emptied body) hbound
    (Body.maker?_emptied body)
  rw [count_ref_add, Multiset.count_add, Multiset.coe_count, Cell.held_zero,
    Cell.held_of_ne Nat.one_ne_zero]
  split <;> simp only <;> omega

/-- A live cell holds other references, which were owned, and those that it held are owned then. -/
theorem Accounted.setBody (hac : Accounted owned h) (hc : h.cells[a]? = some c)
    (hlive : c.count ≠ 0) {body : Body}
    (howned : ∀ b, (owned' + ↑body.children).count (.ref b) = (owned + ↑c.body.children).count (.ref b))
    (hbound : .unbound ∉ body.children) (hmaker : body.maker? = c.body.maker?) :
    Accounted owned' (h.setCell a { c with body }) := by
  refine hac.setCell hc (fun b => ?_) (fun h0 => absurd h0 hlive) hbound hmaker
  have hcount := howned b
  rw [Multiset.count_add, Multiset.count_add, Multiset.coe_count, Multiset.coe_count] at hcount
  have hnew : Cell.held b { c with body } = body.children.count (.ref b) := if_neg hlive
  rw [Cell.held_of_ne hlive, hnew]
  simp only
  omega

/-- The last of the references to a cell is in nobody else's hands. -/
theorem Accounted.held_eq_zero (hac : Accounted ({Value.ref a} + owned) h) {body : Body}
    (hc : h.cells[a]? = some ⟨1, body⟩) : h.held a = 0 ∧ .ref a ∉ owned := by
  have hcount := hac.counts a
  rw [countAt_eq hc, count_ref_add, if_pos rfl] at hcount
  simp only at hcount
  exact ⟨by omega, Multiset.count_eq_zero.1 (by omega)⟩

/-- The heap with another cell. -/
def Heap.extended (h : Heap) (b : Body) : Heap := { h with cells := h.cells.push ⟨1, b⟩ }

theorem cells_extended (h : Heap) (body : Body) (b : Address) :
    (h.extended body).cells[b]? = if b = h.cells.size then some ⟨1, body⟩ else h.cells[b]? :=
  Array.getElem?_push

theorem size_extended (h : Heap) (body : Body) :
    (h.extended body).cells.size = h.cells.size + 1 := Array.size_push _

/-- A new cell takes over the references that it holds. -/
theorem Accounted.alloc {body : Body} (hac : Accounted (↑body.children + owned) h)
    (hbound : .unbound ∉ body.children) (hmaker : ∀ k, body.maker? = some k → k < h.cells.size) :
    Accounted ({Value.ref h.cells.size} + owned) (h.extended body) := by
  have hout : h.held h.cells.size + (↑body.children + owned).count (.ref h.cells.size) = 0 := by
    rw [← hac.counts]
    simp [Heap.countAt]
  rw [Multiset.count_add, Multiset.coe_count] at hout
  refine ⟨fun b => ?_, fun b e he h0 => ?_, fun b e he => ?_, fun b e he k hk => ?_⟩
  · have hold := hac.counts b
    have hheld : (h.extended body).held b = h.held b + body.children.count (.ref b) := by
      simp [Heap.held, Heap.extended, total_append, Heap.total, Cell.held]
    rw [hheld, count_ref_add]
    rw [Multiset.count_add, Multiset.coe_count] at hold
    simp only [Heap.countAt, cells_extended] at hold ⊢
    by_cases hb : b = h.cells.size
    · subst hb
      simp only [if_true, Option.map_some, Option.getD_some]
      omega
    · simp only [hb, if_false]
      omega
  · rw [cells_extended] at he
    split at he
    · cases he
      cases h0
    · exact hac.empty b e he h0
  · rw [cells_extended] at he
    split at he
    · cases he
      exact hbound
    · exact hac.bound b e he
  · rw [size_extended]
    rw [cells_extended] at he
    split at he
    · cases he
      exact Nat.lt_succ_of_lt (hmaker k hk)
    · exact Nat.lt_succ_of_lt (hac.makers b e he k hk)

/-- A heap of one cell, which holds nothing. -/
theorem accounted_single {n : Nat} {b : Body} (hchildren : b.children = []) (hmaker : b.maker? = none)
    (hcount : owned.count (.ref 0) = n) (hrest : ∀ a, owned.count (.ref (a + 1)) = 0) :
    Accounted owned { cells := #[⟨n, b⟩] } := by
  have hcell {a : Address} {c : Cell} (hc : (#[⟨n, b⟩] : Array Cell)[a]? = some c) : c = ⟨n, b⟩ := by
    rcases a with _ | a
    · exact (Option.some.inj hc).symm
    · simp at hc
  have hheld (a : Address) : Heap.held { cells := #[⟨n, b⟩] } a = 0 := by
    simp [Heap.held, Heap.total, Cell.held, hchildren]
  refine ⟨fun a => ?_, fun a c hc _ => ?_, fun a c hc => ?_, fun a c hc k hk => ?_⟩
  · rw [hheld]
    rcases a with _ | a
    · rw [hcount]
      simp [Heap.countAt]
    · rw [hrest]
      simp [Heap.countAt]
  · rw [hcell hc, hchildren]
  · rw [hcell hc, hchildren]
    exact List.not_mem_nil
  · rw [hcell hc, hmaker] at hk
    cases hk

end MethodJit
