import MethodJit.Proofs.Lockstep
import MethodJit.Proofs.Naming

/-!
# Two heaps with one graph

Two runs that started with the same heap represent one graph. `Linked` joins their heaps: linked values
stand for the same, and each run owns its side of the links. The cells that were there at the start keep
their addresses; what was made since can have another address in each heap. The objects that failed
constructions abandoned are owned by nobody else.
-/

namespace MethodJit

def Item.sym (ψ : Naming) : Item → Sym
  | .object v => ψ.of v
  | .int n => .boxed (.int n)

/-- The two sides of a link stand for the same. -/
def Link.Agrees (ψ ψ' : Naming) : Link → Prop
  | .both x y => x.sym ψ = y.sym ψ' ∧ x.sym ψ ≠ .unbound
  | .left v => v ≠ .unbound
  | .right v => v ≠ .unbound

structure Bond (base : Nat) (G : Graph) (ψ ψ' : Naming) (P : Multiset Link) (h h' : Heap) : Prop where
  left : Represents G ψ (lefts P) h
  right : Represents G ψ' (rights P) h'
  agrees : ∀ l ∈ P, l.Agrees ψ ψ'
  size_left : base ≤ h.cells.size
  size_right : base ≤ h'.cells.size
  names : ∀ a < base, ψ a = .node a ∧ ψ' a = .node a

/-- How two runs started: the number of cells, and the objects that were abandoned already. -/
structure Origin where
  size : Nat
  abandoned : List Value

/-- The links of abandoned objects. -/
def pairLinks (A : List (Value × Value)) : Multiset Link := ↑(A.map fun p => Link.pair p.1 p.2)

def Linked (K : Origin) (P : Multiset Link) (h h' : Heap) : Prop :=
  ∃ G ψ ψ' A, Bond K.size G ψ ψ' (pairLinks A + P) h h' ∧
    h.abandoned = A.map (·.1) ++ K.abandoned ∧ h'.abandoned = A.map (·.2) ++ K.abandoned

/-- Values that stand for the same and are alive. -/
structure Counterpart (ψ ψ' : Naming) (h h' : Heap) (v w : Value) : Prop where
  left : h.Live v
  right : h'.Live w
  same : ψ.of v = ψ'.of w

/-- What a run owns, and possibly more. -/
structure Owns (own : Multiset Value) (h : Heap) : Prop where
  bound : .unbound ∉ own
  accounted : ∃ leak, Accounted (leak + own) h

variable {base : Nat} {G : Graph} {ψ ψ' : Naming} {P Q : Multiset Link} {h h' : Heap} {v w : Value}
  {a a' : Address} {K : Origin} {owned : Multiset Value}

@[simp] theorem lefts_pairLinks (A : List (Value × Value)) :
    lefts (pairLinks A) = ↑(A.map (·.1)) := by
  induction A with
  | nil => rfl
  | cons p A ih =>
    have hcons : pairLinks (p :: A) = {Link.pair p.1 p.2} + pairLinks A := rfl
    rw [hcons, lefts_add, ih]
    rfl

@[simp] theorem rights_pairLinks (A : List (Value × Value)) :
    rights (pairLinks A) = ↑(A.map (·.2)) := by
  induction A with
  | nil => rfl
  | cons p A ih =>
    have hcons : pairLinks (p :: A) = {Link.pair p.1 p.2} + pairLinks A := rfl
    rw [hcons, rights_add, ih]
    rfl

theorem Heap.Live.ne_unbound (hv : h.Live v) : v ≠ .unbound := by
  rintro rfl
  exact hv

theorem mem_lefts {l : Link} (hl : l ∈ P) (hv : v ∈ l.lefts) : v ∈ lefts P :=
  Multiset.mem_bind.2 ⟨l, hl, hv⟩

theorem mem_rights {l : Link} (hl : l ∈ P) (hv : v ∈ l.rights) : v ∈ rights P :=
  Multiset.mem_bind.2 ⟨l, hl, hv⟩

theorem Owns.mono {own more : Multiset Value} (ho : Owns (own + more) h) : Owns own h := by
  obtain ⟨hbound, leak, hac⟩ := ho
  refine ⟨fun hu => hbound (Multiset.mem_add.2 (.inl hu)), leak + more, ?_⟩
  rwa [add_assoc, add_comm more]

/-- Owned references can be given up, whatever else is owned. -/
theorem Owns.releaseAll (pending : List Value) {own : Multiset Value} (ho : Owns (↑pending + own) h) :
    ∃ h', Heap.releaseAll pending h = .ok () h' ∧ Owns own h' := by
  obtain ⟨hbound, leak, hac⟩ := ho
  rw [Multiset.mem_add, not_or] at hbound
  rw [← add_assoc, add_comm leak, add_assoc] at hac
  obtain ⟨h', hok, hr, -⟩ := hac.represents.releaseAll pending hbound.1
  exact ⟨h', hok, hbound.2, leak, hr.accounted⟩

theorem Owns.release {own : Multiset Value} (ho : Owns ({v} + own) h) :
    ∃ h', release v h = .ok () h' ∧ Owns own h' :=
  Owns.releaseAll [v] ho

theorem Item.ne_unbound_of_sym {x : Item} (hx : x.sym ψ ≠ .unbound) : .unbound ∉ x.refs := by
  cases x with
  | object v =>
    intro hu
    obtain rfl := Multiset.mem_singleton.1 hu
    exact hx rfl
  | int n => exact Multiset.notMem_zero _

theorem Bond.unbound_notMem_lefts (hb : Bond base G ψ ψ' P h h') : .unbound ∉ lefts P := by
  intro hu
  obtain ⟨l, hl, hu⟩ := Multiset.mem_bind.1 hu
  have hagree := hb.agrees l hl
  cases l with
  | both x y => exact Item.ne_unbound_of_sym hagree.2 hu
  | left v => exact hagree (Multiset.mem_singleton.1 hu).symm
  | right v => exact Multiset.notMem_zero _ hu

theorem Bond.unbound_notMem_rights (hb : Bond base G ψ ψ' P h h') : .unbound ∉ rights P := by
  intro hu
  obtain ⟨l, hl, hu⟩ := Multiset.mem_bind.1 hu
  have hagree := hb.agrees l hl
  cases l with
  | both x y => exact Item.ne_unbound_of_sym (hagree.1 ▸ hagree.2) hu
  | left v => exact Multiset.notMem_zero _ hu
  | right v => exact hagree (Multiset.mem_singleton.1 hu).symm

theorem Bond.owns_left (hb : Bond base G ψ ψ' (Q + P) h h') : Owns (lefts P) h := by
  have hbound := hb.unbound_notMem_lefts
  rw [lefts_add, Multiset.mem_add, not_or] at hbound
  refine ⟨hbound.2, lefts Q, ?_⟩
  rw [← lefts_add]
  exact hb.left.accounted

theorem Bond.owns_right (hb : Bond base G ψ ψ' (Q + P) h h') : Owns (rights P) h' := by
  have hbound := hb.unbound_notMem_rights
  rw [rights_add, Multiset.mem_add, not_or] at hbound
  refine ⟨hbound.2, rights Q, ?_⟩
  rw [← rights_add]
  exact hb.right.accounted

theorem Linked.owns_left (hl : Linked K P h h') : Owns (lefts P) h := by
  obtain ⟨G, ψ, ψ', A, hb, -⟩ := hl
  exact hb.owns_left

theorem Linked.owns_right (hl : Linked K P h h') : Owns (rights P) h' := by
  obtain ⟨G, ψ, ψ', A, hb, -⟩ := hl
  exact hb.owns_right

/-- Two heaps of the same origin. -/
def heapBridge (K : Origin) : Bridge Heap Heap where
  joined := Linked K
  failed := Linked K
  left := Owns
  right := Owns
  joined_left _ _ _ := Linked.owns_left
  joined_right _ _ _ := Linked.owns_right
  left_mono _ _ _ := Owns.mono
  right_mono _ _ _ := Owns.mono

theorem heapBridge_plain (K : Origin) : (heapBridge K).Plain := rfl

theorem Represents.name_ne_unbound (hr : Represents G ψ owned h) {c : Cell}
    (hc : h.cells[a]? = some c) : ψ a ≠ .unbound := by
  have hnamed := hr.named a c hc
  intro heq
  rw [heq] at hnamed
  exact hnamed

/-- A value that is owned under a name is alive, unless it is unbound. -/
theorem Represents.live_of_sym (hr : Represents G ψ owned h) (hv : v ∈ owned)
    (hψ : ψ.of v ≠ .unbound) : h.Live v :=
  hr.live_of_mem hv fun heq => hψ (by rw [heq]; rfl)

theorem Item.sym_update {x : Item} {s : Sym} (hx : Value.ref a ∉ x.refs) :
    x.sym (Function.update ψ a s) = x.sym ψ := by
  cases x with
  | object v => exact Naming.update_of fun heq => hx (by simp [Item.refs, heq])
  | int n => rfl

theorem Represents.ref_size_notMem (hr : Represents G ψ owned h) : .ref h.cells.size ∉ owned := by
  intro hm
  obtain ⟨c, hc, -⟩ := hr.accounted.cell_of_mem hm
  simp at hc

namespace Bond

theorem counterpart (hb : Bond base G ψ ψ' P h h') (hl : Link.pair v w ∈ P) :
    Counterpart ψ ψ' h h' v w := by
  have hagree := hb.agrees _ hl
  have hsame : ψ.of v = ψ'.of w := hagree.1
  have hbound : ψ.of v ≠ .unbound := hagree.2
  refine ⟨hb.left.live_of_sym (mem_lefts hl (by simp)) hbound, ?_, hsame⟩
  exact hb.right.live_of_sym (mem_rights hl (by simp)) (hsame ▸ hbound)

/-- The name of a new cell on the left matters to no link. -/
theorem agrees_left {χ : Naming} (hr : Represents G ψ (lefts P) h) (hP : ∀ l ∈ P, l.Agrees ψ χ)
    (s : Sym) : ∀ l ∈ P, l.Agrees (Function.update ψ h.cells.size s) χ := by
  intro l hl
  have hagree := hP l hl
  cases l with
  | both x y =>
    have hx : Value.ref h.cells.size ∉ x.refs := fun hm => hr.ref_size_notMem (mem_lefts hl hm)
    simp only [Link.Agrees, Item.sym_update hx] at hagree ⊢
    exact hagree
  | _ => exact hagree

theorem agrees_right {χ : Naming} (hr : Represents G ψ' (rights P) h') (hP : ∀ l ∈ P, l.Agrees χ ψ')
    (s : Sym) : ∀ l ∈ P, l.Agrees χ (Function.update ψ' h'.cells.size s) := by
  intro l hl
  have hagree := hP l hl
  cases l with
  | both x y =>
    have hy : Value.ref h'.cells.size ∉ y.refs := fun hm => hr.ref_size_notMem (mem_rights hl hm)
    simp only [Link.Agrees, Item.sym_update hy] at hagree ⊢
    exact hagree
  | _ => exact hagree

theorem agrees_of_add (hP : ∀ l ∈ Q + P, l.Agrees ψ ψ') : ∀ l ∈ P, l.Agrees ψ ψ' :=
  fun l hl => hP l (Multiset.mem_add.2 (.inr hl))

/-- New cells on both sides leave the names of the old ones. -/
theorem names_update (hb : Bond base G ψ ψ' P h h') (s s' : Sym) (b : Address) (hlt : b < base) :
    Function.update ψ h.cells.size s b = .node b ∧ Function.update ψ' h'.cells.size s' b = .node b := by
  have hne : b ≠ h.cells.size := Nat.ne_of_lt (Nat.lt_of_lt_of_le hlt hb.size_left)
  have hne' : b ≠ h'.cells.size := Nat.ne_of_lt (Nat.lt_of_lt_of_le hlt hb.size_right)
  rw [Function.update_of_ne hne, Function.update_of_ne hne']
  exact hb.names b hlt

/-- A number on the left becomes an object. -/
theorem box_left {n : Int32} {y : Item} (hb : Bond base G ψ ψ' ({.both (.int n) y} + P) h h') :
    Bond base G (Function.update ψ h.cells.size (.boxed (.int n))) ψ'
      ({.both (.object (.ref h.cells.size)) y} + P) (h.extended (.int n)) h' := by
  have hleft : Represents G ψ (lefts P) h := by
    have hr := hb.left
    rwa [lefts_add, lefts_singleton, Link.lefts, Item.refs, zero_add] at hr
  refine ⟨?_, ?_, ?_, ?_, hb.size_right, fun b hlt => ?_⟩
  · rw [lefts_add, lefts_singleton]
    exact hleft.alloc_boxed rfl
  · have hr := hb.right
    rwa [rights_add, rights_singleton] at hr ⊢
  · intro l hl
    rcases Multiset.mem_add.1 hl with hl | hl
    · obtain rfl := Multiset.mem_singleton.1 hl
      have hagree := hb.agrees (.both (.int n) y) (by simp)
      simpa [Link.Agrees, Item.sym, Naming.of] using hagree
    · exact agrees_left hleft (agrees_of_add hb.agrees) _ l hl
  · rw [size_extended]
    exact Nat.le_succ_of_le hb.size_left
  · have hne : b ≠ h.cells.size := Nat.ne_of_lt (Nat.lt_of_lt_of_le hlt hb.size_left)
    rw [Function.update_of_ne hne]
    exact hb.names b hlt

/-- A number on the right becomes an object. -/
theorem box_right {n : Int32} {x : Item} (hb : Bond base G ψ ψ' ({.both x (.int n)} + P) h h') :
    Bond base G ψ (Function.update ψ' h'.cells.size (.boxed (.int n)))
      ({.both x (.object (.ref h'.cells.size))} + P) h (h'.extended (.int n)) := by
  have hright : Represents G ψ' (rights P) h' := by
    have hr := hb.right
    rwa [rights_add, rights_singleton, Link.rights, Item.refs, zero_add] at hr
  refine ⟨?_, ?_, ?_, hb.size_left, ?_, fun b hlt => ?_⟩
  · have hr := hb.left
    rwa [lefts_add, lefts_singleton] at hr ⊢
  · rw [rights_add, rights_singleton]
    exact hright.alloc_boxed rfl
  · intro l hl
    rcases Multiset.mem_add.1 hl with hl | hl
    · obtain rfl := Multiset.mem_singleton.1 hl
      have hagree := hb.agrees (.both x (.int n)) (by simp)
      simpa [Link.Agrees, Item.sym, Naming.of] using hagree
    · exact agrees_right hright (agrees_of_add hb.agrees) _ l hl
  · rw [size_extended]
    exact Nat.le_succ_of_le hb.size_right
  · have hne : b ≠ h'.cells.size := Nat.ne_of_lt (Nat.lt_of_lt_of_le hlt hb.size_right)
    rw [Function.update_of_ne hne]
    exact hb.names b hlt

theorem agrees_add (hP : ∀ l ∈ P, l.Agrees ψ ψ') {l : Link} (hl : l.Agrees ψ ψ') :
    ∀ k ∈ {l} + P, k.Agrees ψ ψ' := by
  intro k hk
  rcases Multiset.mem_add.1 hk with hk | hk
  · obtain rfl := Multiset.mem_singleton.1 hk
    exact hl
  · exact hP k hk

theorem agrees_pair (hb : Bond base G ψ ψ' P h h') (hc : Counterpart ψ ψ' h h' v w) :
    (Link.pair v w).Agrees ψ ψ' := by
  refine ⟨hc.same, ?_⟩
  have hlive := hc.left
  cases v with
  | unbound => exact hlive.elim
  | ref a =>
    obtain ⟨c, hcell, -⟩ := hlive
    exact hb.left.name_ne_unbound hcell
  | _ => exact nofun

theorem retain (hb : Bond base G ψ ψ' P h h') (hc : Counterpart ψ ψ' h h' v w) :
    ∃ h₁ h₁', MethodJit.retain v h = .ok () h₁ ∧ MethodJit.retain w h' = .ok () h₁' ∧
      h₁.abandoned = h.abandoned ∧ h₁'.abandoned = h'.abandoned ∧
      Bond base G ψ ψ' ({Link.pair v w} + P) h₁ h₁' := by
  obtain ⟨h₁, hok, hr, hsize, hab⟩ := hb.left.retain hc.left
  obtain ⟨h₁', hok', hr', hsize', hab'⟩ := hb.right.retain hc.right
  refine ⟨h₁, h₁', hok, hok', hab, hab', ?_, ?_, agrees_add hb.agrees (hb.agrees_pair hc), ?_, ?_,
    hb.names⟩
  · rwa [lefts_add, lefts_singleton, lefts_pair]
  · rwa [rights_add, rights_singleton, rights_pair]
  · rw [hsize]
    exact hb.size_left
  · rw [hsize']
    exact hb.size_right

theorem release_left {l : Link} (hv : l.lefts = {v}) (hr : l.rights = 0)
    (hb : Bond base G ψ ψ' ({l} + P) h h') (hbound : v ≠ .unbound) :
    ∃ h₁, release v h = .ok () h₁ ∧ h₁.abandoned = h.abandoned ∧ Bond base G ψ ψ' P h₁ h' := by
  have hleft := hb.left
  have hright := hb.right
  rw [lefts_add, lefts_singleton, hv] at hleft
  rw [rights_add, rights_singleton, hr, zero_add] at hright
  obtain ⟨h₁, hok, hr, hsize, hab⟩ := hleft.releaseAll [v] (by simpa using hbound.symm)
  refine ⟨h₁, hok, hab, hr, hright, agrees_of_add hb.agrees, ?_, hb.size_right, hb.names⟩
  rw [hsize]
  exact hb.size_left

theorem release_right {l : Link} (hv : l.rights = {v}) (hl : l.lefts = 0)
    (hb : Bond base G ψ ψ' ({l} + P) h h') (hbound : v ≠ .unbound) :
    ∃ h₁', release v h' = .ok () h₁' ∧ h₁'.abandoned = h'.abandoned ∧ Bond base G ψ ψ' P h h₁' := by
  have hleft := hb.left
  have hright := hb.right
  rw [lefts_add, lefts_singleton, hl, zero_add] at hleft
  rw [rights_add, rights_singleton, hv] at hright
  obtain ⟨h₁, hok, hr, hsize, hab⟩ := hright.releaseAll [v] (by simpa using hbound.symm)
  refine ⟨h₁, hok, hab, hleft, hr, agrees_of_add hb.agrees, hb.size_left, ?_, hb.names⟩
  rw [hsize]
  exact hb.size_right

/-- A link can be taken apart. -/
theorem split (hb : Bond base G ψ ψ' ({Link.pair v w} + P) h h') :
    Bond base G ψ ψ' ({Link.left v} + ({Link.right w} + P)) h h' := by
  have hc : Counterpart ψ ψ' h h' v w := hb.counterpart (by simp)
  refine ⟨?_, ?_, ?_, hb.size_left, hb.size_right, hb.names⟩
  · have hr := hb.left
    rw [lefts_add, lefts_singleton, lefts_pair] at hr
    rw [lefts_add, lefts_add, lefts_singleton, lefts_singleton]
    change Represents G ψ ({v} + (0 + lefts P)) h
    rwa [zero_add]
  · have hr := hb.right
    rw [rights_add, rights_singleton, rights_pair] at hr
    rw [rights_add, rights_add, rights_singleton, rights_singleton]
    change Represents G ψ' (0 + ({w} + rights P)) h'
    rwa [zero_add]
  · have hleft : (Link.left v).Agrees ψ ψ' := hc.left.ne_unbound
    have hright : (Link.right w).Agrees ψ ψ' := hc.right.ne_unbound
    exact agrees_add (agrees_add (agrees_of_add hb.agrees) hright) hleft

theorem release (hb : Bond base G ψ ψ' ({Link.pair v w} + P) h h') :
    ∃ h₁ h₁', MethodJit.release v h = .ok () h₁ ∧ MethodJit.release w h' = .ok () h₁' ∧
      h₁.abandoned = h.abandoned ∧ h₁'.abandoned = h'.abandoned ∧ Bond base G ψ ψ' P h₁ h₁' := by
  have hc : Counterpart ψ ψ' h h' v w := hb.counterpart (by simp)
  obtain ⟨h₁, hok, hab, hb⟩ := hb.split.release_left rfl rfl hc.left.ne_unbound
  obtain ⟨h₁', hok', hab', hb⟩ := hb.release_right rfl rfl hc.right.ne_unbound
  exact ⟨h₁, h₁', hok, hok', hab, hab', hb⟩

/-- The same object is made in both heaps. -/
theorem alloc_node {body body' : Body} {cs : List (Value × Value)}
    (hb : Bond base G ψ ψ' (pairLinks cs + P) h h') (hcs : body.children = cs.map (·.1))
    (hcs' : body'.children = cs.map (·.2)) (hs : body.shape ψ = body'.shape ψ')
    (hmaker : ∀ k, body.maker? = some k → k < h.cells.size)
    (hmaker' : ∀ k, body'.maker? = some k → k < h'.cells.size) :
    Bond base (G.push (body.shape ψ)) (Function.update ψ h.cells.size (.node G.size))
      (Function.update ψ' h'.cells.size (.node G.size))
      ({Link.pair (.ref h.cells.size) (.ref h'.cells.size)} + P) (h.extended body)
      (h'.extended body') := by
  have hchild (p : Value × Value) (hp : p ∈ cs) : Counterpart ψ ψ' h h' p.1 p.2 :=
    hb.counterpart (Multiset.mem_add.2 (.inl (Multiset.mem_coe.2 (List.mem_map_of_mem hp))))
  have hleft := hb.left
  have hright := hb.right
  rw [lefts_add, lefts_pairLinks, ← hcs] at hleft
  rw [rights_add, rights_pairLinks, ← hcs'] at hright
  refine ⟨?_, ?_, ?_, ?_, ?_, hb.names_update _ _⟩
  · rw [lefts_add, lefts_singleton, lefts_pair]
    refine hleft.alloc_node (fun hm => ?_) hmaker
    rw [hcs, List.mem_map] at hm
    obtain ⟨p, hp, heq⟩ := hm
    exact (hchild p hp).left.ne_unbound heq
  · rw [rights_add, rights_singleton, rights_pair, hs]
    refine hright.alloc_node (fun hm => ?_) hmaker'
    rw [hcs', List.mem_map] at hm
    obtain ⟨p, hp, heq⟩ := hm
    exact (hchild p hp).right.ne_unbound heq
  · refine agrees_add ?_ ?_
    · exact agrees_of_add (agrees_right hb.right (agrees_left hb.left hb.agrees _) _)
    · simp [Link.Agrees, Link.pair, Item.sym, Naming.of]
  · rw [size_extended]
    exact Nat.le_succ_of_le hb.size_left
  · rw [size_extended]
    exact Nat.le_succ_of_le hb.size_right

/-- Two live cells with the same node hold something else. -/
theorem setBody {c c' : Cell} {body body' : Body} {n : Nat} {P' : Multiset Link}
    (hb : Bond base G ψ ψ' P h h') (hc : h.cells[a]? = some c) (hlive : c.count ≠ 0)
    (hn : ψ a = .node n) (hc' : h'.cells[a']? = some c') (hlive' : c'.count ≠ 0)
    (hn' : ψ' a' = .node n) (hs : body.shape ψ = body'.shape ψ') (hP : ∀ l ∈ P', l.Agrees ψ ψ')
    (hown : ∀ b, (lefts P' + ↑body.children).count (.ref b) =
      (lefts P + ↑c.body.children).count (.ref b))
    (hown' : ∀ b, (rights P' + ↑body'.children).count (.ref b) =
      (rights P + ↑c'.body.children).count (.ref b))
    (hbound : .unbound ∉ body.children) (hbound' : .unbound ∉ body'.children)
    (hmaker : body.maker? = c.body.maker?) (hmaker' : body'.maker? = c'.body.maker?) :
    Bond base (G.setIfInBounds n (body.shape ψ)) ψ ψ' P' (h.setCell a { c with body })
      (h'.setCell a' { c' with body := body' }) := by
  refine ⟨hb.left.setBody hc hlive hn hown hbound hmaker, ?_, hP, ?_, ?_, hb.names⟩
  · rw [hs]
    exact hb.right.setBody hc' hlive' hn' hown' hbound' hmaker'
  · rw [size_setCell]
    exact hb.size_left
  · rw [size_setCell]
    exact hb.size_right

end Bond

/-! ## One side at a time -/

/-- The link seen from the other run. -/
def Link.swap : Link → Link
  | .both x y => .both y x
  | .left v => .right v
  | .right v => .left v

theorem lefts_swap (P : Multiset Link) : lefts (P.map .swap) = rights P := by
  rw [lefts, rights, Multiset.bind_map]
  exact Multiset.bind_congr fun l _ => by cases l <;> rfl

theorem rights_swap (P : Multiset Link) : rights (P.map .swap) = lefts P := by
  rw [lefts, rights, Multiset.bind_map]
  exact Multiset.bind_congr fun l _ => by cases l <;> rfl

theorem map_swap_swap (P : Multiset Link) : (P.map .swap).map .swap = P := by
  rw [Multiset.map_map]
  refine (Multiset.map_congr rfl fun l _ => ?_).trans (Multiset.map_id P)
  cases l <;> rfl

theorem Link.Agrees.swap {l : Link} (hl : l.Agrees ψ ψ') : l.swap.Agrees ψ' ψ := by
  cases l with
  | both x y => exact ⟨hl.1.symm, hl.1 ▸ hl.2⟩
  | _ => exact hl

theorem Bond.symm (hb : Bond base G ψ ψ' P h h') : Bond base G ψ' ψ (P.map .swap) h' h where
  left := by rw [lefts_swap]; exact hb.right
  right := by rw [rights_swap]; exact hb.left
  agrees l hl := by
    obtain ⟨k, hk, rfl⟩ := Multiset.mem_map.1 hl
    exact (hb.agrees k hk).swap
  size_left := hb.size_right
  size_right := hb.size_left
  names a ha := (hb.names a ha).symm

theorem pairLinks_swap (A : List (Value × Value)) :
    (pairLinks A).map .swap = pairLinks (A.map Prod.swap) := by
  simp only [pairLinks, Multiset.map_coe, List.map_map]
  rfl

namespace Linked

theorem symm (hl : Linked K P h h') : Linked K (P.map .swap) h' h := by
  obtain ⟨G, ψ, ψ', A, hb, hA, hA'⟩ := hl
  refine ⟨G, ψ', ψ, A.map Prod.swap, ?_, ?_, ?_⟩
  · have hb := hb.symm
    rwa [Multiset.map_add, pairLinks_swap] at hb
  · rw [hA', List.map_map]
    rfl
  · rw [hA, List.map_map]
    rfl

theorem of_symm (hl : Linked K (P.map .swap) h' h) : Linked K P h h' := by
  have := hl.symm
  rwa [map_swap_swap] at this

theorem split (hl : Linked K ({Link.pair v w} + P) h h') :
    Linked K ({Link.left v} + ({Link.right w} + P)) h h' := by
  obtain ⟨G, ψ, ψ', A, hb, hA⟩ := hl
  rw [add_left_comm] at hb
  refine ⟨G, ψ, ψ', A, ?_, hA⟩
  have hb := hb.split
  rwa [add_left_comm (pairLinks A), add_left_comm (pairLinks A)]

theorem release_left (hl : Linked K ({Link.left v} + P) h h') :
    ∃ h₁, release v h = .ok () h₁ ∧ Linked K P h₁ h' := by
  obtain ⟨G, ψ, ψ', A, hb, hA, hA'⟩ := hl
  rw [add_left_comm] at hb
  obtain ⟨h₁, hok, hab, hb⟩ := hb.release_left rfl rfl (hb.agrees (.left v) (by simp))
  exact ⟨h₁, hok, G, ψ, ψ', A, hb, hab ▸ hA, hA'⟩

/-- A number on the left becomes an object. -/
theorem box_left {n : Int32} {y : Item} (hl : Linked K ({.both (.int n) y} + P) h h') :
    Linked K ({.both (.object (.ref h.cells.size)) y} + P) (h.extended (.int n)) h' := by
  obtain ⟨G, ψ, ψ', A, hb, hA, hA'⟩ := hl
  rw [add_left_comm] at hb
  have hb := hb.box_left
  rw [add_left_comm] at hb
  exact ⟨G, _, ψ', A, hb, hA, hA'⟩

end Linked

/-! ## Actions on linked heaps -/

variable {borrow : List Link} {pre : Multiset Link} {t : Prop} {α β : Type} {x : HeapM α} {y : HeapM β}
  {R : α → β → Multiset Link → Prop}

/-- Two results of actions on linked heaps that abandon nothing. They succeed, unless the run on the left
leaves its bounds. -/
def Leads (K : Origin) (P : Multiset Link) (R : α → β → Multiset Link → Prop) (h h' : Heap)
    (rx : EStateM.Result Fault Heap α) (ry : EStateM.Result Fault Heap β) : Prop :=
  (∃ a b h₁ h₁', rx = .ok a h₁ ∧ ry = .ok b h₁' ∧ h₁.abandoned = h.abandoned ∧
    h₁'.abandoned = h'.abandoned ∧
    ∃ Q, R a b Q ∧ ∃ G ψ ψ', Bond K.size G ψ ψ' (Q + P) h₁ h₁') ∨
  ∃ h₁, rx = .error .bounds h₁ ∧ Owns (lefts P) h₁

theorem Twin.of_bond
    (hxy : ∀ G ψ ψ' P h h', Bond K.size G ψ ψ' (pre + P) h h' → (∀ l ∈ borrow, l ∈ P) →
      Leads K P R h h' (x h) (y h')) :
    Twin (heapBridge K) borrow pre t x y R := by
  intro keep h h' hkeep hj
  obtain ⟨G, ψ, ψ', A, hb, hA, hA'⟩ := hj
  rw [add_left_comm] at hb
  rcases hxy G ψ ψ' (pairLinks A + keep) h h' hb fun l hl => Multiset.mem_add.2 (.inr (hkeep l hl)) with
    ⟨a, b, h₁, h₁', hx, hy, hab, hab', Q, hQ, G₁, ψ₁, ψ₁', hb₁⟩ | ⟨h₁, hx, hown⟩
  · rw [hx, hy]
    refine ⟨Q, hQ, G₁, ψ₁, ψ₁', A, ?_, by rw [hab, hA], by rw [hab', hA']⟩
    rwa [add_left_comm] at hb₁
  · rw [hx]
    refine Agree.of_bounds ?_
    rw [lefts_add, add_comm] at hown
    exact hown.mono

theorem Leads.bind {γ δ : Type} {f : α → HeapM γ} {g : β → HeapM δ}
    {S : γ → δ → Multiset Link → Prop} (hx : Leads K P R h h' (x h) (y h'))
    (hf : ∀ a b Q h₁ h₁' G ψ ψ', R a b Q → Bond K.size G ψ ψ' (Q + P) h₁ h₁' →
      Leads K P S h₁ h₁' (f a h₁) (g b h₁')) :
    Leads K P S h h' ((x >>= f) h) ((y >>= g) h') := by
  obtain ⟨a, b, h₁, h₁', hx, hy, hab, hab', Q, hQ, G₁, ψ₁, ψ₁', hb₁⟩ | ⟨h₁, hx, hown⟩ := hx
  · rw [bind_of_ok hx, bind_of_ok hy]
    obtain ⟨c, d, h₂, h₂', hx, hy, hab₂, hab₂', hrest⟩ | hbounds :=
      hf a b Q h₁ h₁' G₁ ψ₁ ψ₁' hQ hb₁
    · exact .inl ⟨c, d, h₂, h₂', hx, hy, hab₂.trans hab, hab₂'.trans hab', hrest⟩
    · exact .inr hbounds
  · rw [bind_of_error hx]
    exact .inr ⟨h₁, rfl, hown⟩

/-- Actions that look at the heaps. -/
theorem Twin.reading {f : Heap → HeapM α} {g : Heap → HeapM β}
    (hfg : ∀ G ψ ψ' P h h', Bond K.size G ψ ψ' P h h' → (∀ l ∈ borrow, l ∈ P) → (∀ l ∈ pre, l ∈ P) →
      Twin (heapBridge K) borrow pre t (f h) (g h') R) :
    Twin (heapBridge K) borrow pre t (MonadState.get >>= f) (MonadState.get >>= g) R := by
  refine Twin.get fun keep h h' hkeep hj => ?_
  obtain ⟨G, ψ, ψ', A, hb, -⟩ := hj
  refine hfg G ψ ψ' _ h h' hb (fun l hl => ?_) (fun l hl => ?_)
  · simp [hkeep l hl]
  · simp [hl]

theorem twin_retain (hl : Link.pair v w ∈ borrow) : Twin (heapBridge K) borrow 0 t (retain v) (retain w)
    fun _ _ Q => Q = {Link.pair v w} := by
  refine .of_bond fun G ψ ψ' P h h' hb hborrow => ?_
  rw [zero_add] at hb
  have hc : Counterpart ψ ψ' h h' v w := hb.counterpart (hborrow _ hl)
  obtain ⟨h₁, h₁', hok, hok', hab, hab', hb₁⟩ := hb.retain hc
  exact .inl ⟨(), (), h₁, h₁', hok, hok', hab, hab', _, rfl, G, ψ, ψ', hb₁⟩

theorem Bond.leads_release (hb : Bond K.size G ψ ψ' ({Link.pair v w} + P) h h') :
    Leads K P Done h h' (MethodJit.release v h) (MethodJit.release w h') := by
  obtain ⟨h₁, h₁', hok, hok', hab, hab', hb₁⟩ := hb.release
  refine .inl ⟨(), (), h₁, h₁', hok, hok', hab, hab', 0, rfl, G, ψ, ψ', ?_⟩
  rwa [zero_add]

theorem twin_release : Twin (heapBridge K) borrow {Link.pair v w} t (release v) (release w) Done := by
  exact .of_bond fun G ψ ψ' P h h' hb _ => hb.leads_release

/-- The same number or text is made in both heaps. -/
theorem Bond.leads_alloc {b : Body} (hb : Bond K.size G ψ ψ' P h h') (hp : b.isPrimitive = true) :
    Leads K P Gives h h' (alloc b h) (alloc b h') := by
  have hmaker (h : Heap) (k : Address) (hk : b.maker? = some k) : k < h.cells.size := by
    rw [Body.maker?_of_isPrimitive hp] at hk
    cases hk
  have hb : Bond K.size G ψ ψ' (pairLinks [] + P) h h' := by rwa [pairLinks, List.map_nil,
    Multiset.coe_nil, zero_add]
  have hnew := hb.alloc_node (Body.children_of_isPrimitive hp) (Body.children_of_isPrimitive hp)
    (by rw [Body.shape_of_isPrimitive hp, Body.shape_of_isPrimitive hp]) (hmaker h) (hmaker h')
  exact .inl ⟨_, _, _, _, rfl, rfl, rfl, rfl, _, rfl, _, _, _, hnew⟩

theorem twin_alloc {b : Body} (hp : b.isPrimitive = true) :
    Twin (heapBridge K) borrow 0 t (alloc b) (alloc b) Gives := by
  refine .of_bond fun G ψ ψ' P h h' hb _ => ?_
  rw [zero_add] at hb
  exact hb.leads_alloc hp

theorem Bond.leads_shared (hb : Bond K.size G ψ ψ' P h h') (hc : Counterpart ψ ψ' h h' v w) :
    Leads K P Gives h h' (shared v h) (shared w h') := by
  obtain ⟨h₁, h₁', hok, hok', hab, hab', hb₁⟩ := hb.retain hc
  refine .inl ⟨v, w, h₁, h₁', ?_, ?_, hab, hab', _, rfl, G, ψ, ψ', hb₁⟩
  · exact bind_of_ok hok
  · exact bind_of_ok hok'

theorem twin_shared (hl : Link.pair v w ∈ borrow) :
    Twin (heapBridge K) borrow 0 t (shared v) (shared w) Gives := by
  refine .of_bond fun G ψ ψ' P h h' hb hborrow => ?_
  rw [zero_add] at hb
  exact hb.leads_shared (hb.counterpart (hborrow _ hl))

/-- Immortal values can be linked at any time. -/
theorem Bond.add_immortal (hb : Bond base G ψ ψ' P h h') (hv : ∀ a, v ≠ .ref a) (hv' : v ≠ .unbound) :
    Bond base G ψ ψ' ({Link.pair v v} + P) h h' := by
  refine ⟨?_, ?_, agrees_add hb.agrees ?_, hb.size_left, hb.size_right, hb.names⟩
  · rw [lefts_add, lefts_singleton, lefts_pair]
    exact hb.left.add_immortal hv
  · rw [rights_add, rights_singleton, rights_pair]
    exact hb.right.add_immortal hv
  · cases v with
    | unbound => exact absurd rfl hv'
    | ref a => exact absurd rfl (hv a)
    | _ => exact ⟨rfl, nofun⟩

theorem Bond.drop_immortal (hb : Bond base G ψ ψ' ({Link.pair v w} + P) h h') (hv : ∀ a, v ≠ .ref a)
    (hw : ∀ a, w ≠ .ref a) : Bond base G ψ ψ' P h h' := by
  have hleft := hb.left
  have hright := hb.right
  rw [lefts_add, lefts_singleton, lefts_pair] at hleft
  rw [rights_add, rights_singleton, rights_pair] at hright
  exact ⟨hleft.drop_immortal hv, hright.drop_immortal hw, agrees_of_add hb.agrees, hb.size_left,
    hb.size_right, hb.names⟩

theorem Bond.leads_immortal (hb : Bond K.size G ψ ψ' P h h') (hv : ∀ a, v ≠ .ref a)
    (hv' : v ≠ .unbound) : Leads K P Gives h h' ((pure v : HeapM Value) h) ((pure v : HeapM Value) h') :=
  .inl ⟨v, v, h, h', rfl, rfl, rfl, rfl, _, rfl, G, ψ, ψ', hb.add_immortal hv hv'⟩

theorem twin_immortal (hv : ∀ a, v ≠ .ref a) (hv' : v ≠ .unbound) :
    Twin (heapBridge K) borrow 0 t (pure v) (pure v) Gives := by
  refine .of_bond fun G ψ ψ' P h h' hb _ => ?_
  rw [zero_add] at hb
  exact hb.leads_immortal hv hv'

theorem cleans_release : Cleans (heapBridge K) {Link.pair v w} (release v) (release w) where
  both := twin_release
  left own h hl := by
    rw [lefts_singleton, lefts_pair] at hl
    exact Owns.release hl
  right own h hr := by
    rw [rights_singleton, rights_pair] at hr
    exact Owns.release hr

/-- The two sides of a link that is owned are bound. -/
theorem Linked.bound (hl : Linked K P h h') (hm : Link.pair v w ∈ P) : v ≠ .unbound ∧ w ≠ .unbound := by
  obtain ⟨G, ψ, ψ', A, hb, -⟩ := hl
  have hc : Counterpart ψ ψ' h h' v w := hb.counterpart (Multiset.mem_add.2 (.inr hm))
  exact ⟨hc.left.ne_unbound, hc.right.ne_unbound⟩

theorem isBound_of_ne (hv : v ≠ .unbound) : v.isBound = true := by
  cases v <;> first | rfl | exact absurd rfl hv

theorem twin_consuming (h : Twin (heapBridge K) (Link.pair v w :: borrow) pre t x y R) :
    Twin (heapBridge K) borrow ({Link.pair v w} + pre) t (consuming v x) (consuming w y) R := by
  intro keep s s' hkeep hj
  obtain ⟨hv, hw⟩ := hj.bound (v := v) (w := w) (by simp)
  rw [consuming, if_pos (isBound_of_ne hv), consuming, if_pos (isBound_of_ne hw)]
  exact Twin.ensuring [Link.pair v w] (heapBridge_plain K) h cleans_release keep s s' hkeep hj

end MethodJit
