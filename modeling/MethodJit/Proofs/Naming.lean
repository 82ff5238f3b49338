import Mathlib.Algebra.Order.Group.Multiset
import MethodJit.Proofs.Accounting
import MethodJit.Proofs.Outcome

/-!
# Names for cells

Heaps of different runs are compared by means of a graph that both of them represent. A naming tells
what each cell stands for: a node of the graph or, for an integer of which one run can make an object
more often than another, its contents. `Represents` says that the live cells of an accounted heap hold
what the graph holds at their nodes. The graph does not change when a cell dies, so that a heap in which
it is still alive goes on representing the same graph; the dead cell holds what is left of its node.
-/

namespace MethodJit

/-- What a value stands for. -/
inductive Sym
  | unbound
  | undefined
  | null
  | bool (b : Bool)
  | boxed (b : Body)
  | node (n : Nat)
deriving DecidableEq

abbrev Naming := Address → Sym

def Naming.of (ψ : Naming) : Value → Sym
  | .unbound => .unbound
  | .undefined => .undefined
  | .null => .null
  | .bool b => .bool b
  | .ref a => ψ a

/-- What a cell holds, up to names. -/
inductive Shape
  | plain (b : Body)
  | object (entries : List (String × Sym)) (writable : Bool) (maker : Option Sym)
  | array (elems : List Sym)
  /-- A cell that had died before, of which only the remains are known. -/
  | lost (remains : Shape)
deriving DecidableEq

def Shape.children : Shape → List Sym
  | .plain _ | .lost _ => []
  | .object entries _ _ => entries.map (·.2)
  | .array elems => elems

/-- What is left of a cell that has died. -/
def Shape.emptied : Shape → Shape
  | .plain b => .plain b
  | .object _ _ maker => .object [] false maker
  | .array _ => .array []
  | .lost remains => remains

def Body.shape (ψ : Naming) : Body → Shape
  | .object table maker =>
    .object (table.entries.map fun e => (e.1, ψ.of e.2)) table.writable (maker.map ψ)
  | .array elems => .array (elems.toList.map ψ.of)
  | b => .plain b

/-- Numbers and texts, which never change and hold no references. -/
def Body.isPrimitive : Body → Bool
  | .int _ | .uint _ | .number _ | .string _ => true
  | _ => false

def Body.isInt : Body → Bool
  | .int _ => true
  | _ => false

abbrev Graph := Array Shape

/-- What a name says of a cell. -/
def Sym.Names (G : Graph) (b : Body) : Sym → Prop
  | .boxed b' => b = b' ∧ b.isInt = true
  | .node n => n < G.size
  | _ => False

/-- The nodes died one after another, the last one first, each after everything that holds it. -/
def Buried (G : Graph) : List Nat → Prop
  | [] => True
  | n :: dead =>
    (∀ (p : Nat) s, G[p]? = some s → .node n ∈ s.children → p ∈ dead) ∧ Buried G dead

structure Represents (G : Graph) (ψ : Naming) (owned : Multiset Value) (h : Heap) : Prop where
  accounted : Accounted owned h
  named : ∀ (a : Address) c, h.cells[a]? = some c → (ψ a).Names G c.body
  injective : ∀ a b n, a < h.cells.size → b < h.cells.size → ψ a = .node n → ψ b = .node n → a = b
  onto : ∀ n < G.size, ∃ a < h.cells.size, ψ a = .node n
  shapes : ∀ (a : Address) c n, h.cells[a]? = some c → c.count ≠ 0 → ψ a = .node n →
    G[n]? = some (c.body.shape ψ)
  remains : ∀ (a : Address) c n, h.cells[a]? = some c → c.count = 0 → ψ a = .node n →
    (G[n]?).map Shape.emptied = some (c.body.shape ψ)
  buried : ∃ dead, Buried G dead ∧ (∀ n ∈ dead, n < G.size) ∧
    ∀ (a : Address) c n, h.cells[a]? = some c → ψ a = .node n → (c.count = 0 ↔ n ∈ dead)

/-- The value has a cell with references to it, or needs none. -/
def Heap.Live (h : Heap) : Value → Prop
  | .unbound => False
  | .ref a => ∃ c, h.cells[a]? = some c ∧ c.count ≠ 0
  | _ => True

/-- The shape of what a name stands for. -/
def Sym.shape? (G : Graph) : Sym → Option Shape
  | .boxed b => some (.plain b)
  | .node n => G[n]?
  | _ => none

variable {G : Graph} {ψ ψ' : Naming} {owned owned' : Multiset Value} {h h' : Heap} {a b : Address}
  {c d : Cell} {v w : Value} {body : Body}

theorem Body.children_shape (ψ : Naming) (b : Body) :
    (b.shape ψ).children = b.children.map ψ.of := by
  cases b <;> simp [Body.shape, Shape.children, Body.children, Function.comp_def]

theorem Body.shape_emptied (ψ : Naming) (b : Body) : b.emptied.shape ψ = (b.shape ψ).emptied := by
  cases b <;> rfl

theorem Body.emptied_of_isPrimitive (hb : body.isPrimitive = true) : body.emptied = body := by
  cases body <;> first | rfl | cases hb

theorem Body.isPrimitive_of_isInt (hb : body.isInt = true) : body.isPrimitive = true := by
  cases body <;> first | rfl | cases hb

theorem Body.children_of_isPrimitive (hb : body.isPrimitive = true) : body.children = [] := by
  cases body <;> first | rfl | cases hb

theorem Body.maker?_of_isPrimitive (hb : body.isPrimitive = true) : body.maker? = none := by
  cases body <;> first | rfl | cases hb

theorem Body.shape_of_isPrimitive (hb : body.isPrimitive = true) : body.shape ψ = .plain body := by
  cases body <;> first | rfl | cases hb

theorem Accounted.congr (hac : Accounted owned h)
    (howned : ∀ a, owned'.count (.ref a) = owned.count (.ref a)) : Accounted owned' h where
  counts a := by rw [howned, hac.counts a]
  empty := hac.empty
  bound := hac.bound
  makers := hac.makers

namespace Represents

theorem congr (hr : Represents G ψ owned h)
    (howned : ∀ a, owned'.count (.ref a) = owned.count (.ref a)) : Represents G ψ owned' h :=
  { hr with accounted := hr.accounted.congr howned }

/-- Immortal values can be owned as often as one likes. -/
theorem add_immortal (hr : Represents G ψ owned h) (hv : ∀ a, v ≠ .ref a) :
    Represents G ψ ({v} + owned) h :=
  hr.congr fun a => by
    rw [Multiset.count_add, Multiset.count_singleton, if_neg (Ne.symm (hv a)), Nat.zero_add]

theorem drop_immortal (hr : Represents G ψ ({v} + owned) h) (hv : ∀ a, v ≠ .ref a) :
    Represents G ψ owned h :=
  hr.congr fun a => by
    rw [Multiset.count_add, Multiset.count_singleton, if_neg (Ne.symm (hv a)), Nat.zero_add]

/-- Another count of a cell, by which it does not die. -/
theorem setCount (hr : Represents G ψ owned h) (hc : h.cells[a]? = some c) (hlive : c.count ≠ 0)
    {n : Nat} (hn : n ≠ 0) (hac : Accounted owned' (h.setCell a { c with count := n })) :
    Represents G ψ owned' (h.setCell a { c with count := n }) := by
  have hold (b : Address) (d : Cell)
      (hd : (h.setCell a { c with count := n }).cells[b]? = some d) :
      ∃ e, h.cells[b]? = some e ∧ d.body = e.body ∧ (d.count = 0 ↔ e.count = 0) := by
    rw [cells_setCell hc] at hd
    split at hd
    · rename_i hb
      subst hb
      cases hd
      exact ⟨c, hc, rfl, by simp [hn, hlive]⟩
    · exact ⟨d, hd, rfl, Iff.rfl⟩
  obtain ⟨dead, hburied, hlt, hdead⟩ := hr.buried
  refine ⟨hac, fun b d hd => ?_, ?_, ?_, fun b d k hd hd0 hk => ?_, fun b d k hd hd0 hk => ?_, dead,
    hburied, hlt, fun b d k hd hk => ?_⟩
  · obtain ⟨e, he, hbody, -⟩ := hold b d hd
    rw [hbody]
    exact hr.named b e he
  · rw [size_setCell]
    exact hr.injective
  · rw [size_setCell]
    exact hr.onto
  · obtain ⟨e, he, hbody, hcount⟩ := hold b d hd
    rw [hbody]
    exact hr.shapes b e k he (mt hcount.2 hd0) hk
  · obtain ⟨e, he, hbody, hcount⟩ := hold b d hd
    rw [hbody]
    exact hr.remains b e k he (hcount.1 hd0) hk
  · obtain ⟨e, he, -, hcount⟩ := hold b d hd
    rw [hcount]
    exact hdead b e k he hk

/-- Only dead cells hold the node of a cell whose last reference is owned. -/
theorem holders_dead (hr : Represents G ψ ({Value.ref a} + owned) h)
    (hc : h.cells[a]? = some ⟨1, body⟩) {n : Nat} (hn : ψ a = .node n) {p : Nat} {s : Shape}
    (hp : G[p]? = some s) (hs : .node n ∈ s.children) :
    ∃ b c, h.cells[b]? = some c ∧ ψ b = .node p ∧ c.count = 0 := by
  obtain ⟨b, hb, hbp⟩ := hr.onto p (Array.getElem?_eq_some_iff.1 hp).1
  refine ⟨b, h.cells[b], Array.getElem?_eq_getElem hb, hbp, ?_⟩
  by_contra hlive
  have hcell : h.cells[b]? = some h.cells[b] := Array.getElem?_eq_getElem hb
  have hshape := hr.shapes b _ p hcell hlive hbp
  rw [hp, Option.some.injEq] at hshape
  rw [hshape, Body.children_shape, List.mem_map] at hs
  obtain ⟨v, hv, hvn⟩ := hs
  cases v with
  | ref a' =>
    obtain ⟨d, hd, -⟩ := hr.accounted.cell_of_child hcell hlive hv
    have ha' : a' = a := hr.injective a' a n (Array.getElem?_eq_some_iff.1 hd).1
      (Array.getElem?_eq_some_iff.1 hc).1 hvn hn
    subst ha'
    have hle := le_held hcell a'
    rw [Cell.held_of_ne hlive, (hr.accounted.held_eq_zero hc).1] at hle
    exact absurd (List.count_pos_iff.2 hv) (by omega)
  | _ => cases hvn

/-- The last reference to a cell is given up, and the cell is emptied. -/
theorem empty_cell (hr : Represents G ψ ({Value.ref a} + owned) h)
    (hc : h.cells[a]? = some ⟨1, body⟩) :
    Represents G ψ (↑body.children + owned) (h.setCell a ⟨0, body.emptied⟩) := by
  have ha := (Array.getElem?_eq_some_iff.1 hc).1
  have hnamed := hr.named a _ hc
  obtain ⟨dead, hburied, hlt, hdead⟩ := hr.buried
  have hnew (b : Address) (d : Cell) (hd : (h.setCell a ⟨0, body.emptied⟩).cells[b]? = some d) :
      (b = a ∧ d = ⟨0, body.emptied⟩) ∨ (b ≠ a ∧ h.cells[b]? = some d) := by
    rw [cells_setCell hc] at hd
    split at hd
    · exact .inl ⟨by assumption, (Option.some.inj hd).symm⟩
    · exact .inr ⟨by assumption, hd⟩
  refine ⟨hr.accounted.empty_cell hc, fun b d hd => ?_, ?_, ?_, fun b d k hd hd0 hk => ?_,
    fun b d k hd hd0 hk => ?_, ?_⟩
  · obtain ⟨rfl, rfl⟩ | ⟨-, hd⟩ := hnew b d hd
    · cases hψ : ψ b with
      | boxed b' =>
        rw [hψ] at hnamed
        simp only [Body.emptied_of_isPrimitive (Body.isPrimitive_of_isInt hnamed.2)]
        exact hnamed
      | _ =>
        rw [hψ] at hnamed
        exact hnamed
    · exact hr.named b d hd
  · rw [size_setCell]
    exact hr.injective
  · rw [size_setCell]
    exact hr.onto
  · obtain ⟨rfl, rfl⟩ | ⟨-, hd⟩ := hnew b d hd
    · exact absurd rfl hd0
    · exact hr.shapes b d k hd hd0 hk
  · obtain ⟨rfl, rfl⟩ | ⟨-, hd⟩ := hnew b d hd
    · rw [hr.shapes b _ k hc Nat.one_ne_zero hk, Body.shape_emptied]
      rfl
    · exact hr.remains b d k hd hd0 hk
  · cases hψ : ψ a with
    | node n =>
      rw [hψ] at hnamed
      refine ⟨n :: dead, ⟨fun p s hp hs => ?_, hburied⟩, List.forall_mem_cons.2 ⟨hnamed, hlt⟩,
        fun b d k hd hk => ?_⟩
      · obtain ⟨b, e, he, hbp, he0⟩ := hr.holders_dead hc hψ hp hs
        exact (hdead b e p he hbp).1 he0
      · obtain ⟨rfl, rfl⟩ | ⟨hne, hd⟩ := hnew b d hd
        · rw [hψ, Sym.node.injEq] at hk
          simp [hk]
        · have hkn : k ≠ n := by
            rintro rfl
            exact hne (hr.injective b a k (Array.getElem?_eq_some_iff.1 hd).1 ha hk hψ)
          rw [hdead b d k hd hk, List.mem_cons]
          simp [hkn]
    | _ =>
      refine ⟨dead, hburied, hlt, fun b d k hd hk => ?_⟩
      obtain ⟨rfl, rfl⟩ | ⟨-, hd⟩ := hnew b d hd
      · rw [hψ] at hk
        cases hk
      · exact hdead b d k hd hk

/-- Owned references can be given up. -/
theorem releaseAll (pending : List Value) (hr : Represents G ψ (↑pending + owned) h)
    (hbound : .unbound ∉ pending) :
    ∃ h', Heap.releaseAll pending h = .ok () h' ∧ Represents G ψ owned h' ∧
      h'.cells.size = h.cells.size ∧ h'.abandoned = h.abandoned := by
  have hsplit (v : Value) (rest : List Value) :
      (↑(v :: rest) + owned : Multiset Value) = {v} + (↑rest + owned) := by
    rw [← Multiset.cons_coe, ← Multiset.singleton_add, add_assoc]
  fun_induction Heap.releaseAll pending h with
  | case1 h =>
    rw [Multiset.coe_nil, zero_add] at hr
    exact ⟨h, rfl, hr, rfl, rfl⟩
  | case2 h rest => exact absurd List.mem_cons_self hbound
  | case3 h rest ih | case4 h rest ih | case5 h rest b ih =>
    rw [hsplit] at hr
    exact ih (hr.drop_immortal nofun) (fun hm => hbound (List.mem_cons_of_mem _ hm))
  | case6 h a rest hc =>
    rw [hsplit] at hr
    obtain ⟨c, hc', -⟩ := hr.accounted.cell_of_mem (a := a) (by simp)
    rw [hc] at hc'
    cases hc'
  | case7 h a rest body hc =>
    rw [hsplit] at hr
    obtain ⟨c, hc', hlive⟩ := hr.accounted.cell_of_mem (a := a) (by simp)
    rw [hc] at hc'
    cases hc'
    exact absurd rfl hlive
  | case8 h a rest body hc ih =>
    rw [hsplit] at hr
    have hempty := hr.empty_cell hc
    rw [← add_assoc, Multiset.coe_add] at hempty
    have hb : .unbound ∉ body.children ++ rest := by
      rw [List.mem_append, not_or]
      exact ⟨hr.accounted.bound a _ hc, fun hm => hbound (List.mem_cons_of_mem _ hm)⟩
    obtain ⟨h', hok, hr', hsize, habandoned⟩ := ih hempty hb
    exact ⟨h', hok, hr', by rw [hsize, size_setCell], habandoned⟩
  | case9 h a rest n body hc ih =>
    rw [hsplit] at hr
    have hcount := hr.setCount (n := n + 1) hc (Nat.succ_ne_zero _) (Nat.succ_ne_zero _)
      (hr.accounted.release hc)
    obtain ⟨h', hok, hr', hsize, habandoned⟩ :=
      ih hcount (fun hm => hbound (List.mem_cons_of_mem _ hm))
    exact ⟨h', hok, hr', by rw [hsize, size_setCell], habandoned⟩

theorem retain (hr : Represents G ψ owned h) (hv : h.Live v) :
    ∃ h', MethodJit.retain v h = .ok () h' ∧ Represents G ψ ({v} + owned) h' ∧
      h'.cells.size = h.cells.size ∧ h'.abandoned = h.abandoned := by
  cases v with
  | unbound => exact hv.elim
  | ref a =>
    obtain ⟨c, hc, hlive⟩ := hv
    refine ⟨h.setCell a { c with count := c.count + 1 }, by simp [MethodJit.retain, hc], ?_,
      size_setCell _ _ _, rfl⟩
    exact hr.setCount hc hlive (Nat.succ_ne_zero _) (hr.accounted.retain hc hlive)
  | _ => exact ⟨h, rfl, hr.add_immortal nofun, rfl, rfl⟩

theorem live_of_mem (hr : Represents G ψ owned h) (hv : v ∈ owned) (hbound : v ≠ .unbound) :
    h.Live v := by
  cases v with
  | unbound => exact hbound rfl
  | ref a => exact hr.accounted.cell_of_mem hv
  | _ => trivial

theorem live_of_child (hr : Represents G ψ owned h) (hc : h.cells[a]? = some c)
    (hlive : c.count ≠ 0) (hv : v ∈ c.body.children) : h.Live v := by
  cases v with
  | unbound => exact hr.accounted.bound a c hc hv
  | ref b => exact hr.accounted.cell_of_child hc hlive hv
  | _ => trivial

/-- Live cells have no dead nodes. -/
theorem not_mem_dead (hv : h.Live v) {dead : List Nat}
    (hdead : ∀ (a : Address) c n, h.cells[a]? = some c → ψ a = .node n → (c.count = 0 ↔ n ∈ dead))
    {n : Nat} (hn : ψ.of v = .node n) : n ∉ dead := by
  cases v with
  | ref a =>
    obtain ⟨c, hc, hlive⟩ := hv
    exact fun hm => hlive ((hdead a c n hc hn).2 hm)
  | _ => cases hn

/-! ## What values stand for -/

/-- The cell of a live value holds what its name says. -/
theorem body_shape (hr : Represents G ψ owned h) (hv : h.Live v) :
    (h.body? v).map (Body.shape ψ) = (ψ.of v).shape? G := by
  cases v with
  | unbound => exact hv.elim
  | ref a =>
    obtain ⟨c, hc, hlive⟩ := hv
    have hnamed := hr.named a c hc
    simp only [Heap.body?, Heap.cell?, hc, Option.map_some, Naming.of]
    cases hψ : ψ a with
    | boxed b =>
      rw [hψ] at hnamed
      obtain ⟨rfl, hb⟩ := hnamed
      rw [Body.shape_of_isPrimitive (Body.isPrimitive_of_isInt hb)]
      rfl
    | node n => exact (hr.shapes a c n hc hlive hψ).symm
    | _ =>
      rw [hψ] at hnamed
      exact hnamed.elim
  | _ => rfl

end Represents

/-- Bodies that hold the same under two namings. -/
inductive Body.Alike (ψ ψ' : Naming) : Option Body → Option Body → Prop
  | none : Alike ψ ψ' none none
  | plain (b : Body) (hb : b.children = []) (hb' : b.shape ψ = .plain b) :
    Alike ψ ψ' (some b) (some b)
  | object (es es' : List (String × Value)) (w : Bool) (k k' : Option Address)
    (hes : List.Forall₂ (fun e e' => e.1 = e'.1 ∧ ψ.of e.2 = ψ'.of e'.2) es es')
    (hk : k.map ψ = k'.map ψ') : Alike ψ ψ' (some (.object ⟨es, w⟩ k)) (some (.object ⟨es', w⟩ k'))
  | array (xs xs' : Array Value)
    (hxs : List.Forall₂ (fun x x' => ψ.of x = ψ'.of x') xs.toList xs'.toList) :
    Alike ψ ψ' (some (.array xs)) (some (.array xs'))

theorem forall₂_of_map_eq {α β γ : Type} {f : α → γ} {g : β → γ} {l : List α} {l' : List β}
    (heq : l.map f = l'.map g) : List.Forall₂ (fun x y => f x = g y) l l' := by
  rw [← List.forall₂_eq_eq_eq, List.forall₂_map_left_iff, List.forall₂_map_right_iff] at heq
  exact heq

theorem Body.alike_of_shape {b b' : Body} (hs : b.shape ψ = b'.shape ψ') :
    Body.Alike ψ ψ' (some b) (some b') := by
  cases b with
  | object t k =>
    cases b' with
    | object t' k' =>
      obtain ⟨es, w⟩ := t
      obtain ⟨es', w'⟩ := t'
      simp only [Body.shape, Shape.object.injEq] at hs
      obtain ⟨hes, rfl, hk⟩ := hs
      refine .object es es' w k k' ((forall₂_of_map_eq hes).imp fun e e' he => ?_) hk
      exact Prod.ext_iff.1 he
    | _ => cases hs
  | array xs =>
    cases b' with
    | array xs' =>
      simp only [Body.shape, Shape.array.injEq] at hs
      exact .array xs xs' (forall₂_of_map_eq hs)
    | _ => cases hs
  | _ =>
    cases b' <;> cases hs
    exact .plain _ rfl rfl

namespace Represents

theorem alike {owned' : Multiset Value} (hr : Represents G ψ owned h) (hr' : Represents G ψ' owned' h')
    (hv : h.Live v) (hw : h'.Live w) (heq : ψ.of v = ψ'.of w) :
    Body.Alike ψ ψ' (h.body? v) (h'.body? w) := by
  have hs : (h.body? v).map (Body.shape ψ) = (h'.body? w).map (Body.shape ψ') := by
    rw [hr.body_shape hv, hr'.body_shape hw, heq]
  cases hb : h.body? v with
  | none =>
    rw [hb] at hs
    rw [Option.map_eq_none_iff.1 hs.symm]
    exact .none
  | some b =>
    rw [hb, Option.map_some] at hs
    obtain ⟨b', hb', hs⟩ := Option.map_eq_some_iff.1 hs.symm
    rw [hb']
    exact Body.alike_of_shape hs.symm

end Represents

/-! ## New cells and new contents -/

theorem Body.shape_congr (hchild : ∀ v ∈ body.children, ψ.of v = ψ'.of v)
    (hmaker : ∀ k, body.maker? = some k → ψ k = ψ' k) : body.shape ψ = body.shape ψ' := by
  cases body with
  | object table k =>
    have hentries : table.entries.map (fun e => (e.1, ψ.of e.2)) =
        table.entries.map fun e => (e.1, ψ'.of e.2) :=
      List.map_congr_left fun e he => by rw [hchild e.2 (List.mem_map_of_mem he)]
    have hk : k.map ψ = k.map ψ' := Option.map_congr fun k hk => hmaker k hk
    simp only [Body.shape, hentries, hk]
  | array elems => exact congrArg Shape.array (List.map_congr_left hchild)
  | _ => rfl

theorem Naming.update_of {s : Sym} (hv : v ≠ .ref a) :
    Naming.of (Function.update ψ a s) v = ψ.of v := by
  cases v with
  | ref b =>
    have hb : b ≠ a := fun hb => hv (by rw [hb])
    exact Function.update_of_ne hb s ψ
  | _ => rfl

theorem Heap.Live.ne_ref_size (hv : h.Live v) : v ≠ .ref h.cells.size := by
  rintro rfl
  obtain ⟨c, hc, -⟩ := hv
  simp at hc

/-- A new node that holds no dead ones. -/
theorem Buried.push {dead : List Nat} (hb : Buried G dead) {s : Shape}
    (hs : ∀ n ∈ dead, .node n ∉ s.children) : Buried (G.push s) dead := by
  induction dead with
  | nil => trivial
  | cons n dead ih =>
    refine ⟨fun p t hp ht => ?_, ih hb.2 fun m hm => hs m (List.mem_cons_of_mem _ hm)⟩
    rw [Array.getElem?_push] at hp
    split at hp
    · cases hp
      exact absurd ht (hs n List.mem_cons_self)
    · exact hb.1 p t hp ht

/-- Another shape of a node, which holds no dead ones. -/
theorem Buried.set {dead : List Nat} (hb : Buried G dead) {k : Nat} {s : Shape}
    (hs : ∀ n ∈ dead, .node n ∉ s.children) : Buried (G.setIfInBounds k s) dead := by
  induction dead with
  | nil => trivial
  | cons n dead ih =>
    refine ⟨fun p t hp ht => ?_, ih hb.2 fun m hm => hs m (List.mem_cons_of_mem _ hm)⟩
    rw [Array.getElem?_setIfInBounds] at hp
    split at hp
    · split at hp
      · cases hp
        exact absurd ht (hs n List.mem_cons_self)
      · cases hp
    · exact hb.1 p t hp ht

theorem Buried.of_forall {dead : List Nat}
    (hdead : ∀ n ∈ dead, ∀ (p : Nat) s, G[p]? = some s → .node n ∉ s.children) : Buried G dead := by
  induction dead with
  | nil => trivial
  | cons n dead ih =>
    refine ⟨fun p s hp hs => absurd hs (hdead n List.mem_cons_self p s hp), ih fun m hm => ?_⟩
    exact hdead m (List.mem_cons_of_mem _ hm)

namespace Represents

/-- What cells hold does not depend on the name of a new cell. -/
theorem shape_update (hr : Represents G ψ owned h) (hc : h.cells[a]? = some c) (s : Sym) :
    c.body.shape (Function.update ψ h.cells.size s) = c.body.shape ψ := by
  refine Body.shape_congr (fun v hv => ?_) (fun k hk => ?_)
  · by_cases hlive : c.count = 0
    · rw [hr.accounted.empty a c hc hlive] at hv
      cases hv
    · exact Naming.update_of (hr.live_of_child hc hlive hv).ne_ref_size
  · have := hr.accounted.makers a c hc k hk
    exact Function.update_of_ne (Nat.ne_of_lt this) s ψ

/-- A new integer that is known by its contents. -/
theorem alloc_boxed (hr : Represents G ψ owned h) (hint : body.isInt = true) :
    Represents G (Function.update ψ h.cells.size (.boxed body)) ({Value.ref h.cells.size} + owned)
      (h.extended body) := by
  have hb := Body.isPrimitive_of_isInt hint
  have hac : Accounted ({Value.ref h.cells.size} + owned) (h.extended body) := by
    refine Accounted.alloc ?_ ?_ ?_
    · rw [Body.children_of_isPrimitive hb, Multiset.coe_nil, zero_add]
      exact hr.accounted
    · simp [Body.children_of_isPrimitive hb]
    · simp [Body.maker?_of_isPrimitive hb]
  have hold (b : Address) (d : Cell) (n : Nat) (hd : (h.extended body).cells[b]? = some d)
      (hn : Function.update ψ h.cells.size (.boxed body) b = .node n) :
      h.cells[b]? = some d ∧ ψ b = .node n := by
    rw [cells_extended] at hd
    by_cases hb : b = h.cells.size
    · rw [hb, Function.update_self] at hn
      cases hn
    · rw [if_neg hb] at hd
      rw [Function.update_of_ne hb] at hn
      exact ⟨hd, hn⟩
  have hlt (b : Address) (n : Nat) (hn : Function.update ψ h.cells.size (.boxed body) b = .node n)
      (hlt : b < (h.extended body).cells.size) : b < h.cells.size ∧ ψ b = .node n := by
    obtain ⟨hd, hn⟩ := hold b _ n (Array.getElem?_eq_getElem hlt) hn
    exact ⟨(Array.getElem?_eq_some_iff.1 hd).1, hn⟩
  obtain ⟨dead, hburied, hdlt, hdead⟩ := hr.buried
  refine ⟨hac, fun b d hd => ?_, fun b b' n hb hb' hn hn' => ?_, fun n hn => ?_,
    fun b d n hd hd0 hn => ?_, fun b d n hd hd0 hn => ?_, dead, hburied, hdlt,
    fun b d n hd hn => ?_⟩
  · rw [cells_extended] at hd
    by_cases hb : b = h.cells.size
    · rw [if_pos hb] at hd
      cases hd
      rw [hb, Function.update_self]
      exact ⟨rfl, hint⟩
    · rw [if_neg hb] at hd
      rw [Function.update_of_ne hb]
      exact hr.named b d hd
  · obtain ⟨hb, hn⟩ := hlt b n hn hb
    obtain ⟨hb', hn'⟩ := hlt b' n hn' hb'
    exact hr.injective b b' n hb hb' hn hn'
  · obtain ⟨b, hb, hbn⟩ := hr.onto n hn
    refine ⟨b, by rw [size_extended]; omega, ?_⟩
    rw [Function.update_of_ne (Nat.ne_of_lt hb)]
    exact hbn
  · obtain ⟨hd, hn⟩ := hold b d n hd hn
    rw [hr.shape_update hd]
    exact hr.shapes b d n hd hd0 hn
  · obtain ⟨hd, hn⟩ := hold b d n hd hn
    rw [hr.shape_update hd]
    exact hr.remains b d n hd hd0 hn
  · obtain ⟨hd, hn⟩ := hold b d n hd hn
    exact hdead b d n hd hn

theorem node_lt (hr : Represents G ψ owned h) (ha : a < h.cells.size) {n : Nat} (hn : ψ a = .node n) :
    n < G.size := by
  have hnamed := hr.named a _ (Array.getElem?_eq_getElem ha)
  rw [hn] at hnamed
  exact hnamed

/-- A new cell of which the graph gets a node. -/
theorem alloc_node (hr : Represents G ψ (↑body.children + owned) h)
    (hbound : .unbound ∉ body.children) (hmaker : ∀ k, body.maker? = some k → k < h.cells.size) :
    Represents (G.push (body.shape ψ)) (Function.update ψ h.cells.size (.node G.size))
      ({Value.ref h.cells.size} + owned) (h.extended body) := by
  have hcases (b : Address) (d : Cell) (hd : (h.extended body).cells[b]? = some d) :
      (b = h.cells.size ∧ d = ⟨1, body⟩) ∨ (b ≠ h.cells.size ∧ h.cells[b]? = some d) := by
    rw [cells_extended] at hd
    split at hd
    · exact .inl ⟨by assumption, (Option.some.inj hd).symm⟩
    · exact .inr ⟨by assumption, hd⟩
  have hlt (b : Address) (hb : b < (h.extended body).cells.size) :
      b = h.cells.size ∨ b < h.cells.size := by
    rw [size_extended] at hb
    exact (Nat.lt_succ_iff_lt_or_eq.1 hb).symm
  have hchild (v : Value) (hv : v ∈ body.children) : h.Live v :=
    hr.live_of_mem (by simp [hv]) fun heq => hbound (heq ▸ hv)
  have hshape : body.shape (Function.update ψ h.cells.size (.node G.size)) = body.shape ψ := by
    refine Body.shape_congr (fun v hv => ?_) (fun k hk => ?_)
    · exact Naming.update_of (hchild v hv).ne_ref_size
    · exact Function.update_of_ne (Nat.ne_of_lt (hmaker k hk)) _ _
  obtain ⟨dead, hburied, hdlt, hdead⟩ := hr.buried
  refine ⟨hr.accounted.alloc hbound hmaker, fun b d hd => ?_, fun b b' n hb hb' hn hn' => ?_,
    fun n hn => ?_, fun b d n hd hd0 hn => ?_, fun b d n hd hd0 hn => ?_, dead, ?_, fun n hn => ?_,
    fun b d n hd hn => ?_⟩
  · obtain ⟨rfl, rfl⟩ | ⟨hb, hd⟩ := hcases b d hd
    · rw [Function.update_self]
      simp [Sym.Names]
    · rw [Function.update_of_ne hb]
      have hnamed := hr.named b d hd
      cases hψ : ψ b with
      | node n =>
        rw [hψ] at hnamed
        simp only [Sym.Names, Array.size_push] at hnamed ⊢
        omega
      | _ =>
        rw [hψ] at hnamed
        exact hnamed
  · obtain rfl | hb := hlt b hb <;> obtain rfl | hb' := hlt b' hb'
    · rfl
    · rw [Function.update_self, Sym.node.injEq] at hn
      rw [Function.update_of_ne (Nat.ne_of_lt hb')] at hn'
      have := hr.node_lt hb' hn'
      omega
    · rw [Function.update_self, Sym.node.injEq] at hn'
      rw [Function.update_of_ne (Nat.ne_of_lt hb)] at hn
      have := hr.node_lt hb hn
      omega
    · rw [Function.update_of_ne (Nat.ne_of_lt hb)] at hn
      rw [Function.update_of_ne (Nat.ne_of_lt hb')] at hn'
      exact hr.injective b b' n hb hb' hn hn'
  · rw [Array.size_push] at hn
    by_cases hnew : n = G.size
    · exact ⟨h.cells.size, by rw [size_extended]; omega, by rw [Function.update_self, hnew]⟩
    · obtain ⟨b, hb, hbn⟩ := hr.onto n (by omega)
      refine ⟨b, by rw [size_extended]; omega, ?_⟩
      rw [Function.update_of_ne (Nat.ne_of_lt hb)]
      exact hbn
  · obtain ⟨rfl, rfl⟩ | ⟨hb, hd⟩ := hcases b d hd
    · rw [Function.update_self, Sym.node.injEq] at hn
      rw [← hn, hshape, Array.getElem?_push_size]
    · rw [Function.update_of_ne hb] at hn
      rw [hr.shape_update hd, ← hr.shapes b d n hd hd0 hn]
      have := hr.node_lt (Array.getElem?_eq_some_iff.1 hd).1 hn
      rw [Array.getElem?_push, if_neg (Nat.ne_of_lt this)]
  · obtain ⟨rfl, rfl⟩ | ⟨hb, hd⟩ := hcases b d hd
    · cases hd0
    · rw [Function.update_of_ne hb] at hn
      rw [hr.shape_update hd, ← hr.remains b d n hd hd0 hn]
      have := hr.node_lt (Array.getElem?_eq_some_iff.1 hd).1 hn
      rw [Array.getElem?_push, if_neg (Nat.ne_of_lt this)]
  · refine hburied.push fun n hn hm => ?_
    rw [Body.children_shape, List.mem_map] at hm
    obtain ⟨v, hv, hvn⟩ := hm
    exact not_mem_dead (hchild v hv) hdead hvn hn
  · have := hdlt n hn
    rw [Array.size_push]
    omega
  · obtain ⟨rfl, rfl⟩ | ⟨hb, hd⟩ := hcases b d hd
    · rw [Function.update_self, Sym.node.injEq] at hn
      simp only [Nat.one_ne_zero, false_iff]
      intro hm
      have := hdlt n hm
      omega
    · rw [Function.update_of_ne hb] at hn
      exact hdead b d n hd hn

/-- A live cell with a node holds something else. -/
theorem setBody (hr : Represents G ψ owned h) (hc : h.cells[a]? = some c) (hlive : c.count ≠ 0)
    {n : Nat} (hn : ψ a = .node n)
    (howned : ∀ b, (owned' + ↑body.children).count (.ref b) = (owned + ↑c.body.children).count (.ref b))
    (hbound : .unbound ∉ body.children) (hmaker : body.maker? = c.body.maker?) :
    Represents (G.setIfInBounds n (body.shape ψ)) ψ owned' (h.setCell a { c with body }) := by
  have ha := (Array.getElem?_eq_some_iff.1 hc).1
  have hcases (b : Address) (d : Cell) (hd : (h.setCell a { c with body }).cells[b]? = some d) :
      (b = a ∧ d = { c with body }) ∨ (b ≠ a ∧ h.cells[b]? = some d) := by
    rw [cells_setCell hc] at hd
    split at hd
    · exact .inl ⟨by assumption, (Option.some.inj hd).symm⟩
    · exact .inr ⟨by assumption, hd⟩
  have hchild (v : Value) (hv : v ∈ body.children) : h.Live v := by
    cases v with
    | unbound => exact hbound hv
    | ref b =>
      have hm : .ref b ∈ owned + ↑c.body.children := by
        rw [← Multiset.count_pos, ← howned, Multiset.count_pos]
        simp [hv]
      rcases Multiset.mem_add.1 hm with hm | hm
      · exact hr.live_of_mem hm nofun
      · exact hr.live_of_child hc hlive (by simpa using hm)
    | _ => trivial
  obtain ⟨dead, hburied, hdlt, hdead⟩ := hr.buried
  refine ⟨hr.accounted.setBody hc hlive howned hbound hmaker, fun b d hd => ?_, ?_, fun m hm => ?_,
    fun b d m hd hd0 hm => ?_, fun b d m hd hd0 hm => ?_, dead, ?_, fun m hm => ?_,
    fun b d m hd hm => ?_⟩
  · obtain ⟨rfl, rfl⟩ | ⟨-, hd⟩ := hcases b d hd
    · rw [hn]
      simp only [Sym.Names, Array.size_setIfInBounds]
      exact hr.node_lt ha hn
    · have hnamed := hr.named b d hd
      cases hψ : ψ b with
      | node m =>
        rw [hψ] at hnamed
        simpa only [Sym.Names, Array.size_setIfInBounds] using hnamed
      | _ =>
        rw [hψ] at hnamed
        exact hnamed
  · rw [size_setCell]
    exact hr.injective
  · rw [size_setCell]
    rw [Array.size_setIfInBounds] at hm
    exact hr.onto m hm
  · obtain ⟨rfl, rfl⟩ | ⟨hb, hd⟩ := hcases b d hd
    · rw [hn, Sym.node.injEq] at hm
      rw [← hm, Array.getElem?_setIfInBounds_self_of_lt (hr.node_lt ha hn)]
    · have hmn : n ≠ m := by
        rintro rfl
        exact hb (hr.injective b a n (Array.getElem?_eq_some_iff.1 hd).1 ha hm hn)
      rw [Array.getElem?_setIfInBounds_ne hmn]
      exact hr.shapes b d m hd hd0 hm
  · obtain ⟨rfl, rfl⟩ | ⟨hb, hd⟩ := hcases b d hd
    · exact absurd hd0 hlive
    · have hmn : n ≠ m := by
        rintro rfl
        exact hb (hr.injective b a n (Array.getElem?_eq_some_iff.1 hd).1 ha hm hn)
      rw [Array.getElem?_setIfInBounds_ne hmn]
      exact hr.remains b d m hd hd0 hm
  · refine hburied.set fun m hm hs => ?_
    rw [Body.children_shape, List.mem_map] at hs
    obtain ⟨v, hv, hvm⟩ := hs
    exact not_mem_dead (hchild v hv) hdead hvm hm
  · rw [Array.size_setIfInBounds]
    exact hdlt m hm
  · obtain ⟨rfl, rfl⟩ | ⟨-, hd⟩ := hcases b d hd
    · exact hdead b c m hc hm
    · exact hdead b d m hd hm

end Represents

/-- The node of a cell in a graph in which every cell is one. -/
def Cell.node (c : Cell) : Shape :=
  if c.count = 0 then .lost (c.body.shape .node) else c.body.shape .node

/-- The graph of a heap whose cells are nodes. -/
def Heap.graph (h : Heap) : Graph := h.cells.map Cell.node

/-- Every accounted heap represents its own graph. -/
theorem Accounted.represents (hac : Accounted owned h) : Represents h.graph .node owned h := by
  have hget (n : Nat) : h.graph[n]? = (h.cells[n]?).map Cell.node := by
    simp [Heap.graph]
  have hdead (n : Nat) (hn : h.countAt n = 0) (p : Nat) (s : Shape) (hp : h.graph[p]? = some s) :
      .node n ∉ s.children := by
    intro hs
    rw [hget] at hp
    obtain ⟨c, hc, rfl⟩ := Option.map_eq_some_iff.1 hp
    unfold Cell.node at hs
    split at hs
    · cases hs
    · rename_i hlive
      rw [Body.children_shape, List.mem_map] at hs
      obtain ⟨v, hv, hvn⟩ := hs
      cases v with
      | ref b =>
        obtain rfl : b = n := Sym.node.inj hvn
        obtain ⟨d, hd, hd0⟩ := hac.cell_of_child hc hlive hv
        rw [countAt_eq hd] at hn
        exact hd0 hn
      | _ => cases hvn
  refine ⟨hac, fun a c hc => ?_, fun a b n _ _ ha hb => ?_, fun n hn => ⟨n, ?_, rfl⟩,
    fun a c n hc hlive hn => ?_, fun a c n hc h0 hn => ?_,
    (List.range h.cells.size).filter fun n => h.countAt n = 0, ?_, fun n hn => ?_,
    fun a c n hc hn => ?_⟩
  · have := (Array.getElem?_eq_some_iff.1 hc).1
    simpa [Sym.Names, Heap.graph] using this
  · exact (Sym.node.inj ha).trans (Sym.node.inj hb).symm
  · simpa [Heap.graph] using hn
  · obtain rfl := Sym.node.inj hn
    rw [hget, hc, Option.map_some, Cell.node, if_neg hlive]
  · obtain rfl := Sym.node.inj hn
    rw [hget, hc, Option.map_some, Cell.node, if_pos h0]
    rfl
  · exact Buried.of_forall fun n hn => hdead n (by simpa using (List.mem_filter.1 hn).2)
  · simpa [Heap.graph] using (List.mem_filter.1 hn).1
  · obtain rfl := Sym.node.inj hn
    have ha := (Array.getElem?_eq_some_iff.1 hc).1
    simp [countAt_eq hc, ha]

end MethodJit
