import MethodJit.Proofs.Tallies

/-!
# Heaps that are the same up to addresses

Two runs that made the same objects in another order have heaps in which the cells have other addresses. Such
heaps are the same up to a correspondence of their cells, by which cells that were there before are left in their
places. Integers are known by their contents, since one run can make an object of an integer where another one
makes none. Heaps with one graph of which the same is owned are the same in that sense.
-/

namespace MethodJit

/-- Values that are the same, where cells correspond. -/
inductive Value.Renamed (ρ : Address → Address → Prop) : Value → Value → Prop
  | unbound : Renamed ρ .unbound .unbound
  | undefined : Renamed ρ .undefined .undefined
  | null : Renamed ρ .null .null
  | bool (b : Bool) : Renamed ρ (.bool b) (.bool b)
  | ref {a a' : Address} (ha : ρ a a') : Renamed ρ (.ref a) (.ref a')

/-- Bodies that hold the same, where cells correspond. -/
inductive Body.Renamed (ρ : Address → Address → Prop) : Body → Body → Prop
  | plain (b : Body) (hchildren : b.children = []) (hmaker : b.maker? = none) : Renamed ρ b b
  | object (es es' : List (String × Value)) (writable : Bool) (k k' : Option Address)
    (hes : List.Forall₂ (fun e e' => e.1 = e'.1 ∧ Value.Renamed ρ e.2 e'.2) es es') (hk : Option.Rel ρ k k') :
    Renamed ρ (.object ⟨es, writable⟩ k) (.object ⟨es', writable⟩ k')
  | array (xs xs' : Array Value) (hxs : List.Forall₂ (Value.Renamed ρ) xs.toList xs'.toList) :
    Renamed ρ (.array xs) (.array xs')

/-- The cell is known by more than its contents: it is no integer, or it was among the `old` cells. -/
def Cell.Distinct (old : Nat) (a : Address) (c : Cell) : Prop := c.body.isInt = true → a < old

/-- The heaps are the same where cells correspond. The `old` cells correspond to themselves. -/
structure Heap.Renamed (old : Nat) (ρ : Address → Address → Prop) (h h' : Heap) : Prop where
  inside : ∀ a a', ρ a a' → a < h.cells.size ∧ a' < h'.cells.size
  fixed : ∀ a < old, ρ a a
  left : ∀ (a : Address) c, h.cells[a]? = some c → c.Distinct old a → ∃! a', ρ a a'
  right : ∀ (a' : Address) c', h'.cells[a']? = some c' → c'.Distinct old a' → ∃! a, ρ a a'
  bodies : ∀ a a' c c', ρ a a' → h.cells[a]? = some c → h'.cells[a']? = some c' → c.body.Renamed ρ c'.body
  counts : ∀ a a' c c', ρ a a' → h.cells[a]? = some c → h'.cells[a']? = some c' → c.Distinct old a →
    c.count = c'.count

/-! ## Heaps with one graph -/

variable {G : Graph} {ψ ψ' : Naming} {P : Multiset Link} {h h' : Heap} {owned owned' : Multiset Value} {old : Nat}
  {a a' : Address} {c c' : Cell} {v w : Value}

/-- Cells of the same name. -/
def Naming.Matches (ψ ψ' : Naming) (h h' : Heap) (a a' : Address) : Prop :=
  a < h.cells.size ∧ a' < h'.cells.size ∧ ψ a = ψ' a'

namespace Represents

theorem name_cases (hr : Represents G ψ owned h) (ha : a < h.cells.size) :
    (∃ b, ψ a = .boxed b) ∨ ∃ n, ψ a = .node n := by
  have hnamed := hr.named a _ (Array.getElem?_eq_getElem ha)
  cases hs : ψ a with
  | boxed b => exact .inl ⟨b, rfl⟩
  | node n => exact .inr ⟨n, rfl⟩
  | _ =>
    rw [hs] at hnamed
    exact hnamed.elim

/-- Cells that are known by more than their contents have nodes. -/
theorem exists_node (hr : Represents G ψ owned h) (hnames : ∀ a < old, ψ a = .node a)
    (hc : h.cells[a]? = some c) (hd : c.Distinct old a) : ∃ n, ψ a = .node n := by
  by_cases ha : a < old
  · exact ⟨a, hnames a ha⟩
  · have hnamed := hr.named a c hc
    cases hs : ψ a with
    | node n => exact ⟨n, rfl⟩
    | boxed b =>
      rw [hs] at hnamed
      exact absurd (hd hnamed.2) ha
    | _ =>
      rw [hs] at hnamed
      exact hnamed.elim

/-- A node stands for one cell on the other side. -/
theorem existsUnique_address (hr : Represents G ψ owned h) (hr' : Represents G ψ' owned' h')
    (ha : a < h.cells.size) {n : Nat} (hn : ψ a = .node n) : ∃! a', ψ.Matches ψ' h h' a a' := by
  obtain ⟨a', ha', hn'⟩ := hr'.onto n (hr.node_lt ha hn)
  refine ⟨a', ⟨ha, ha', hn.trans hn'.symm⟩, ?_⟩
  rintro b ⟨-, hb, heq⟩
  exact hr'.injective b a' n hb ha' (heq.symm.trans hn) hn'

theorem renamed_value (hr : Represents G ψ owned h) (hr' : Represents G ψ' owned' h')
    (hv : ∀ a, v = .ref a → a < h.cells.size) (hw : ∀ a, w = .ref a → a < h'.cells.size)
    (heq : ψ.of v = ψ'.of w) : v.Renamed (ψ.Matches ψ' h h') w := by
  cases v with
  | ref a =>
    cases w with
    | ref a' => exact .ref ⟨hv a rfl, hw a' rfl, heq⟩
    | _ => rcases hr.name_cases (hv a rfl) with ⟨_, hs⟩ | ⟨_, hs⟩ <;> cases hs.symm.trans heq
  | _ =>
    cases w with
    | ref a' => rcases hr'.name_cases (hw a' rfl) with ⟨_, hs⟩ | ⟨_, hs⟩ <;> cases heq.trans hs
    | _ => first | cases heq; constructor | cases heq

end Represents

/-- What a cell holds is in the heap. -/
theorem Accounted.lt_of_child (hac : Accounted owned h) (hc : h.cells[a]? = some c) {b : Address}
    (hb : .ref b ∈ c.body.children) : b < h.cells.size := by
  by_cases hcount : c.count = 0
  · rw [hac.empty a c hc hcount] at hb
    exact (List.not_mem_nil hb).elim
  · obtain ⟨d, hd, -⟩ := hac.cell_of_child hc hcount hb
    exact (Array.getElem?_eq_some_iff.1 hd).1

theorem forall₂_of_mem {α β : Type} {R S : α → β → Prop} {l : List α} {l' : List β} (hR : List.Forall₂ R l l')
    (hS : ∀ x ∈ l, ∀ y ∈ l', R x y → S x y) : List.Forall₂ S l l' := by
  obtain ⟨hlen, hzip⟩ := List.forall₂_iff_zip.1 hR
  refine List.forall₂_iff_zip.2 ⟨hlen, fun {x y} hmem => ?_⟩
  obtain ⟨hx, hy⟩ := List.of_mem_zip hmem
  exact hS x hx y hy (hzip hmem)

theorem Represents.renamed_body (hr : Represents G ψ owned h) (hr' : Represents G ψ' owned' h')
    (hc : h.cells[a]? = some c) (hc' : h'.cells[a']? = some c') (hs : c.body.shape ψ = c'.body.shape ψ') :
    c.body.Renamed (ψ.Matches ψ' h h') c'.body := by
  have hchild (v : Value) (hv : v ∈ c.body.children) (b : Address) (hb : v = .ref b) : b < h.cells.size :=
    hr.accounted.lt_of_child hc (hb ▸ hv)
  have hchild' (v : Value) (hv : v ∈ c'.body.children) (b : Address) (hb : v = .ref b) : b < h'.cells.size :=
    hr'.accounted.lt_of_child hc' (hb ▸ hv)
  have hmaker := hr.accounted.makers a c hc
  have hmaker' := hr'.accounted.makers a' c' hc'
  have halike := Body.alike_of_shape hs
  revert hchild hchild' hmaker hmaker'
  generalize c.body = b at halike
  generalize c'.body = b' at halike
  intro hchild hchild' hmaker hmaker'
  cases halike with
  | plain b hb hplain =>
    refine .plain b hb ?_
    cases b <;> first | rfl | cases hplain
  | object es es' writable k k' hes hk =>
    refine .object es es' writable k k' ?_ ?_
    · refine forall₂_of_mem hes ?_
      rintro e he e' he' ⟨hkey, heq⟩
      exact ⟨hkey, hr.renamed_value hr' (hchild _ (List.mem_map_of_mem he)) (hchild' _ (List.mem_map_of_mem he')) heq⟩
    · cases k with
      | none =>
        cases k' with
        | none => exact .none
        | some _ => cases hk
      | some f =>
        cases k' with
        | none => cases hk
        | some f' => exact .some ⟨hmaker f rfl, hmaker' f' rfl, Option.some.inj hk⟩
  | array xs xs' hxs =>
    refine .array xs xs' (forall₂_of_mem hxs fun v hv w hw heq => ?_)
    exact hr.renamed_value hr' (hchild v hv) (hchild' w hw) heq

theorem Heap.Live.lt_size (hv : h.Live v) (a : Address) (ha : v = .ref a) : a < h.cells.size := by
  rw [ha] at hv
  obtain ⟨c, hc, -⟩ := hv
  exact (Array.getElem?_eq_some_iff.1 hc).1

namespace Bond

/-- Linked values are the same. -/
theorem renamed_pair (hb : Bond old G ψ ψ' P h h') (hl : Link.pair v w ∈ P) :
    v.Renamed (ψ.Matches ψ' h h') w := by
  have hc := hb.counterpart hl
  exact hb.left.renamed_value hb.right hc.left.lt_size hc.right.lt_size hc.same

variable (hb : Bond old G ψ ψ' P h h') (hP : ∀ l ∈ P, l.Shared)

include hb hP

/-- Heaps with one graph of which the same is owned are the same up to the addresses. -/
theorem renamed : h.Renamed old (ψ.Matches ψ' h h') h' where
  inside a a' ha := ⟨ha.1, ha.2.1⟩
  fixed a ha := ⟨ha.trans_le hb.size_left, ha.trans_le hb.size_right, (hb.names a ha).1.trans (hb.names a ha).2.symm⟩
  left a c hc hd := by
    obtain ⟨n, hn⟩ := hb.left.exists_node (fun a ha => (hb.names a ha).1) hc hd
    exact hb.left.existsUnique_address hb.right (Array.getElem?_eq_some_iff.1 hc).1 hn
  right a' c' hc' hd := by
    obtain ⟨n, hn⟩ := hb.right.exists_node (fun a ha => (hb.names a ha).2) hc' hd
    obtain ⟨a, ⟨ha', ha, heq⟩, hunique⟩ :=
      hb.right.existsUnique_address hb.left (Array.getElem?_eq_some_iff.1 hc').1 hn
    exact ⟨a, ⟨ha, ha', heq.symm⟩, fun b hm => hunique b ⟨hm.2.1, hm.1, hm.2.2.symm⟩⟩
  bodies a a' c c' hm hc hc' := by
    refine hb.left.renamed_body hb.right hc hc' ?_
    rcases hb.left.name_cases hm.1 with ⟨b, hn⟩ | ⟨n, hn⟩
    · have hnamed := hb.left.named a c hc
      have hnamed' := hb.right.named a' c' hc'
      rw [hn] at hnamed
      rw [← hm.2.2, hn] at hnamed'
      obtain ⟨rfl, hint⟩ := hnamed
      obtain ⟨heq, -⟩ := hnamed'
      rw [heq, Body.shape_of_isPrimitive (Body.isPrimitive_of_isInt hint),
        Body.shape_of_isPrimitive (Body.isPrimitive_of_isInt hint)]
    · exact hb.shape_eq hP hc hn hc' (hm.2.2.symm.trans hn)
  counts a a' c c' hm hc hc' hd := by
    obtain ⟨n, hn⟩ := hb.left.exists_node (fun a ha => (hb.names a ha).1) hc hd
    exact hb.count_eq hP hc hn hc' (hm.2.2.symm.trans hn)

end Bond

end MethodJit
