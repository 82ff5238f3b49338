import MethodJit.Proofs.Frames
import MethodJit.Proofs.Routines

/-!
# Lanes

A lane is an invocation as it is meant: the operands and locals that it has, no matter whether they are
in the frame or still pending in compiled code. An operand can be a number of which no object has been
made, and a local can have a value while its place holds the one that it displaced. Instructions that
only move values are actions on lanes. Those that take and give them can do so in two modes: at once, as
the interpreter does, or later.

Two lanes are joined if what they hold is linked in pairs.
-/

namespace MethodJit

/-- A local: its value and, as long as that has not been stored, what its place holds. -/
structure Local where
  value : Value
  displaced : Option Value := none
deriving DecidableEq

structure Lane extends Setting where
  heap : Heap
  /-- The operands, the topmost first. -/
  operands : List Item
  locals : List Local
  scope : List Value

abbrev LaneM := EStateM Fault Lane

/-- An invocation that has everything in its frame. -/
def View.lane (V : View) (h : Heap) : Lane where
  toSetting := V.toSetting
  heap := h
  operands := V.operands.reverse.map .object
  locals := V.locals.map ({ value := · })
  scope := V.scope

/-- Whether values are stored at once or pending first. -/
inductive Mode
  | eager
  | lazy
deriving DecidableEq

/-- How a local is set: at once, pending, or not at all if it has that value already. -/
inductive Storing
  | now
  | later
  | unlessSame
deriving DecidableEq

namespace Item

/-- The item as an object. -/
def box : Item → HeapM Value
  | .object v => pure v
  | .int n => newInt n

def retain : Item → HeapM Unit
  | .object v => MethodJit.retain v
  | .int _ => pure ()

def release : Item → HeapM Unit
  | .object v => MethodJit.release v
  | .int _ => pure ()

def isInt : Item → Bool
  | .object _ => false
  | .int _ => true

/-- A number on the left is one on the right. -/
def Fits (x y : Item) : Prop := x.isInt = true → y.isInt = true

end Item

/-- What a supply gives to an invocation with these scopes. -/
def Supply.make (s : Supply) (scope : List Value) (global : Value) : HeapM Value :=
  match s with
  | .pushNull => pure .null
  | .pushUndefined => pure .undefined
  | .pushTrue => pure (.bool true)
  | .pushFalse => pure (.bool false)
  | .pushNaN => newNumber .nan
  | .getGlobalScope => shared ((scope[0]?).getD global)

/-- The cell of a constant. -/
def Constant.body? (c : Constant) (pool : Pool) (i : Int32) : Option Body :=
  if i < 0 then none
  else match c with
    | .pushInt => (pool.ints[i.toNatClampNeg]?).map .int
    | .pushUInt => (pool.uints[i.toNatClampNeg]?).map .uint
    | .pushDouble => (pool.doubles[i.toNatClampNeg]?).map .number
    | .pushString => (pool.strings[i.toNatClampNeg]?).map .string

def Constant.make (c : Constant) (pool : Pool) (i : Int32) : HeapM Value :=
  match c.body? pool i with
  | some b => alloc b
  | none => throw .bounds

namespace Lane

variable {α : Type}

/-- An action on the heap that looks at the lane. -/
def reading (x : Lane → HeapM α) : LaneM α := fun ℓ =>
  match x ℓ ℓ.heap with
  | .ok a h => .ok a { ℓ with heap := h }
  | .error e h => .error e { ℓ with heap := h }

def onHeap (x : HeapM α) : LaneM α := reading fun _ => x

/-- Takes the topmost operand. -/
def pop : LaneM Item := fun ℓ =>
  match ℓ.operands with
  | [] => .error .bounds ℓ
  | x :: rest => .ok x { ℓ with operands := rest }

/-- Puts an operand on top. Only what is stored at once must have its slot. -/
def push (mode : Mode) (x : Item) : LaneM Unit := fun ℓ =>
  if mode = .eager ∧ ℓ.capacity ≤ ℓ.operands.length then .error .bounds ℓ
  else .ok () { ℓ with operands := x :: ℓ.operands }

/-- A new number, of which an object is made at once or later. -/
def makeInt (mode : Mode) (n : Int32) : LaneM Item :=
  onHeap (match mode with
    | .eager => Item.object <$> newInt n
    | .lazy => pure (.int n))

/-- Another reference to the topmost operand. -/
def shareTop : LaneM Item :=
  reading fun ℓ =>
    match ℓ.operands with
    | [] => throw .bounds
    | x :: _ => do
      x.retain
      pure x

/-- A new reference to the value of a local. -/
def share (i : Nat) : LaneM Value :=
  reading fun ℓ =>
    match ℓ.locals[i]? with
    | none => throw .bounds
    | some l => shared l.value

/-- Sets a local. What its place holds is given up when the new value is stored, a pending value at
once. -/
def setLocal (how : Storing) (i : Nat) (v : Value) : LaneM Unit := fun ℓ =>
  match ℓ.locals[i]? with
  | none => .error .bounds ℓ
  | some l =>
    if how = .unlessSame ∧ l = ⟨v, none⟩ then onHeap (release v) ℓ
    else
      let stored : LaneM Unit := fun ℓ =>
        onHeap (if how = .now then releaseBound l.value else release l.value)
          { ℓ with locals := ℓ.locals.set i ⟨v, l.displaced⟩ }
      if how ≠ .now ∧ l.displaced = none then
        .ok () { ℓ with locals := ℓ.locals.set i ⟨v, some l.value⟩ }
      else stored ℓ

/-- Makes objects of the items, the lowest first, above those that have been stored. -/
def storeOperands : List Item → List Item → LaneM Unit
  | [], _ => pure ()
  | x :: rest, stored => do
    let v ← onHeap x.box
    modify fun ℓ => { ℓ with operands := rest.reverse ++ .object v :: stored }
    if (← get).capacity ≤ stored.length then throw .bounds
    storeOperands rest (.object v :: stored)

/-- Stores all operands. -/
def sync : LaneM Unit := do storeOperands (← get).operands.reverse []

/-- Stores a local and gives up what its place held. -/
def storeLocal (i : Nat) : LaneM Unit := fun ℓ =>
  match ℓ.locals[i]? with
  | some ⟨v, some p⟩ => onHeap (releaseBound p) { ℓ with locals := ℓ.locals.set i ⟨v, none⟩ }
  | _ => .ok () ℓ

/-- Stores `n` locals from `i` on. -/
def syncLocalsFrom : Nat → Nat → LaneM Unit
  | 0, _ => pure ()
  | n + 1, i => do
    storeLocal i
    syncLocalsFrom n (i + 1)

/-- Stores all locals. -/
def syncLocals : LaneM Unit := do syncLocalsFrom (← get).locals.length 0

def supply (s : Supply) : LaneM Value := reading fun ℓ => s.make ℓ.scope ℓ.global

def constant (c : Constant) (i : Int32) : LaneM Value :=
  reading fun ℓ => c.make ℓ.method.constants i

end Lane

/-! ## Links -/

/-- What a slot owns. -/
def Value.refs (v : Value) : Multiset Value := if v = .unbound then 0 else {v}

/-- What a local has yet to give up. -/
def Local.strays (l : Local) : Multiset Value := (l.displaced.map Value.refs).getD 0

def Local.refs (l : Local) : Multiset Value := l.value.refs + l.strays

/-- What a lane owns. -/
def Lane.refs (ℓ : Lane) : Multiset Value :=
  (ℓ.operands.map Item.refs).sum + (ℓ.locals.map Local.refs).sum + ↑ℓ.scope

theorem map_object_refs (O : List Value) : ((O.map Item.object).map Item.refs).sum = (↑O : Multiset Value) := by
  induction O with
  | nil => rfl
  | cons v O ih =>
    rw [List.map_cons, List.map_cons, List.sum_cons, ih]
    rfl

/-- The lane of a frame owns what is in the frame. -/
theorem View.refs_lane (V : View) (h : Heap) :
    (V.lane h).refs = (V.locals.map Value.refs).sum + ↑V.operands + ↑V.scope := by
  have hlocals : (V.locals.map fun v => Local.refs { value := v }) = V.locals.map Value.refs :=
    List.map_congr_left fun v _ => by simp [Local.refs, Local.strays]
  rw [Lane.refs]
  simp only [View.lane, List.map_map]
  rw [← List.map_map, map_object_refs, Multiset.coe_reverse, Function.comp_def, hlocals,
    add_comm (↑V.operands : Multiset Value)]

/-- The links of two locals: their values, and what only one of them has yet to give up. -/
def Local.links (l l' : Local) : Multiset Link :=
  (if l.value = .unbound then 0 else {Link.pair l.value l'.value}) +
    l.strays.map .left + l'.strays.map .right

/-- Locals that are bound together, and are in their places before that. -/
structure Local.Fits (l l' : Local) : Prop where
  bound : l.value = .unbound ↔ l'.value = .unbound
  stored : l.value = .unbound → l.displaced = none ∧ l'.displaced = none

def itemLinks (Z : List (Item × Item)) : Multiset Link := ↑(Z.map fun p => Link.both p.1 p.2)

def localLinks (M : List (Local × Local)) : Multiset Link := (M.map fun p => p.1.links p.2).sum

/-- What two lanes with the same setting hold, in pairs. -/
structure Lane.Pairs (s : Setting) (ℓ ℓ' : Lane) (Z : List (Item × Item)) (M : List (Local × Local))
    (S : List (Value × Value)) : Prop where
  setting_left : ℓ.toSetting = s
  setting_right : ℓ'.toSetting = s
  operands_left : ℓ.operands = Z.map Prod.fst
  operands_right : ℓ'.operands = Z.map Prod.snd
  locals_left : ℓ.locals = M.map Prod.fst
  locals_right : ℓ'.locals = M.map Prod.snd
  scope_left : ℓ.scope = S.map Prod.fst
  scope_right : ℓ'.scope = S.map Prod.snd
  fits : ∀ p ∈ M, p.1.Fits p.2

/-- The links of all that two lanes hold. -/
def laneLinks (Z : List (Item × Item)) (M : List (Local × Local)) (S : List (Value × Value)) :
    Multiset Link := itemLinks Z + localLinks M + pairLinks S

def Lane.Joined (K : Origin) (s : Setting) (P : Multiset Link) (ℓ ℓ' : Lane) : Prop :=
  ∃ Z M S, ℓ.Pairs s ℓ' Z M S ∧ (∀ p ∈ Z, p.1.Fits p.2) ∧
    Linked K (laneLinks Z M S + P) ℓ.heap ℓ'.heap

/-- The references are owned beside those of the lane. -/
def Lane.Owns (own : Multiset Value) (ℓ : Lane) : Prop := MethodJit.Owns (own + ℓ.refs) ℓ.heap

variable {K : Origin} {s : Setting} {P Q : Multiset Link} {ℓ ℓ' : Lane} {Z : List (Item × Item)}
  {M : List (Local × Local)} {S : List (Value × Value)}

theorem lefts_map_left (s : Multiset Value) : lefts (s.map .left) = s := by
  rw [lefts, Multiset.bind_map]
  exact Multiset.bind_singleton s id |>.trans (Multiset.map_id s)

theorem lefts_map_right (s : Multiset Value) : lefts (s.map .right) = 0 := by
  rw [lefts, Multiset.bind_map]
  exact Multiset.bind_zero s

theorem rights_map_right (s : Multiset Value) : rights (s.map .right) = s := by
  rw [rights, Multiset.bind_map]
  exact Multiset.bind_singleton s id |>.trans (Multiset.map_id s)

theorem rights_map_left (s : Multiset Value) : rights (s.map .left) = 0 := by
  rw [rights, Multiset.bind_map]
  exact Multiset.bind_zero s

theorem lefts_localLink (l l' : Local) : lefts (l.links l') = l.refs := by
  have hvalue : lefts (if l.value = .unbound then 0 else {Link.pair l.value l'.value}) =
      l.value.refs := by
    unfold Value.refs
    split <;> simp
  rw [Local.links, lefts_add, lefts_add, lefts_map_left, lefts_map_right, hvalue, add_zero, Local.refs]

theorem rights_localLink {l l' : Local} (hf : l.Fits l') : rights (l.links l') = l'.refs := by
  have hvalue : rights (if l.value = .unbound then 0 else {Link.pair l.value l'.value}) =
      l'.value.refs := by
    unfold Value.refs
    simp only [hf.bound]
    split <;> simp
  rw [Local.links, rights_add, rights_add, rights_map_left, rights_map_right, hvalue, add_zero,
    Local.refs]

theorem itemLinks_cons (p : Item × Item) (Z : List (Item × Item)) :
    itemLinks (p :: Z) = {Link.both p.1 p.2} + itemLinks Z := rfl

theorem lefts_itemLinks (Z : List (Item × Item)) :
    lefts (itemLinks Z) = ((Z.map Prod.fst).map Item.refs).sum := by
  induction Z with
  | nil => rfl
  | cons p Z ih =>
    rw [itemLinks_cons, lefts_add, ih, lefts_singleton]
    rfl

theorem rights_itemLinks (Z : List (Item × Item)) :
    rights (itemLinks Z) = ((Z.map Prod.snd).map Item.refs).sum := by
  induction Z with
  | nil => rfl
  | cons p Z ih =>
    rw [itemLinks_cons, rights_add, ih, rights_singleton]
    rfl

theorem localLinks_cons (p : Local × Local) (M : List (Local × Local)) :
    localLinks (p :: M) = p.1.links p.2 + localLinks M := rfl

theorem localLinks_append (M N : List (Local × Local)) :
    localLinks (M ++ N) = localLinks M + localLinks N := by
  simp [localLinks]

theorem lefts_localLinks (M : List (Local × Local)) :
    lefts (localLinks M) = ((M.map Prod.fst).map Local.refs).sum := by
  induction M with
  | nil => rfl
  | cons p M ih =>
    rw [localLinks_cons, lefts_add, ih, lefts_localLink]
    rfl

theorem rights_localLinks {M : List (Local × Local)} (hM : ∀ p ∈ M, p.1.Fits p.2) :
    rights (localLinks M) = ((M.map Prod.snd).map Local.refs).sum := by
  induction M with
  | nil => rfl
  | cons p M ih =>
    obtain ⟨hp, hM⟩ := List.forall_mem_cons.1 hM
    rw [localLinks_cons, rights_add, ih hM, rights_localLink hp]
    rfl

namespace Lane

theorem Pairs.lefts_eq (hp : ℓ.Pairs s ℓ' Z M S) : lefts (laneLinks Z M S) = ℓ.refs := by
  rw [laneLinks, lefts_add, lefts_add, lefts_itemLinks, lefts_localLinks, lefts_pairLinks,
    ← hp.operands_left, ← hp.locals_left, ← hp.scope_left, Lane.refs]

theorem Pairs.rights_eq (hp : ℓ.Pairs s ℓ' Z M S) : rights (laneLinks Z M S) = ℓ'.refs := by
  rw [laneLinks, rights_add, rights_add, rights_itemLinks, rights_localLinks hp.fits,
    rights_pairLinks, ← hp.operands_right, ← hp.locals_right, ← hp.scope_right, Lane.refs]

theorem Pairs.owns_left (hp : ℓ.Pairs s ℓ' Z M S)
    (hl : Linked K (laneLinks Z M S + P) ℓ.heap ℓ'.heap) : ℓ.Owns (lefts P) := by
  have ho := hl.owns_left
  rwa [lefts_add, hp.lefts_eq, add_comm] at ho

theorem Joined.owns_left (hj : Joined K s P ℓ ℓ') : ℓ.Owns (lefts P) := by
  obtain ⟨Z, M, S, hp, -, hl⟩ := hj
  exact hp.owns_left hl

theorem Joined.owns_right (hj : Joined K s P ℓ ℓ') : ℓ'.Owns (rights P) := by
  obtain ⟨Z, M, S, hp, -, hl⟩ := hj
  have ho := hl.owns_right
  rwa [rights_add, hp.rights_eq, add_comm] at ho

theorem Owns.mono {own more : Multiset Value} (ho : ℓ.Owns (own + more)) : ℓ.Owns own := by
  have ho' : MethodJit.Owns (own + ℓ.refs + more) ℓ.heap := by rwa [add_right_comm]
  exact ho'.mono

end Lane

/-- Two lanes of the same origin and setting. -/
def laneBridge (K : Origin) (s : Setting) : Bridge Lane Lane where
  joined := Lane.Joined K s
  failed := Lane.Joined K s
  left := Lane.Owns
  right := Lane.Owns
  joined_left _ _ _ := Lane.Joined.owns_left
  joined_right _ _ _ := Lane.Joined.owns_right
  left_mono _ _ _ := Lane.Owns.mono
  right_mono _ _ _ := Lane.Owns.mono

variable {borrow : List Link} {pre : Multiset Link} {t : Prop} {α β : Type}
  {R : α → β → Multiset Link → Prop}

/-- The lanes with other heaps. -/
theorem Lane.Pairs.heaps (hp : ℓ.Pairs s ℓ' Z M S) (h h' : Heap) :
    Lane.Pairs s { ℓ with heap := h } { ℓ' with heap := h' } Z M S := { hp with }

theorem Lane.reading_eq (x : Lane → HeapM α) (ℓ : Lane) :
    Lane.reading x ℓ = within (fun h => { ℓ with heap := h }) (x ℓ ℓ.heap) := by
  unfold Lane.reading
  cases x ℓ ℓ.heap <;> rfl

/-- Actions on the heaps of two lanes that can borrow what the lanes hold. -/
theorem twin_reading {x : Lane → HeapM α} {y : Lane → HeapM β}
    (h : ∀ ℓ ℓ' Z M S, Lane.Pairs s ℓ ℓ' Z M S → (∀ p ∈ Z, p.1.Fits p.2) →
      ∃ more : List Link, (∀ l ∈ more, l ∈ laneLinks Z M S) ∧
        Twin (heapBridge K) (more ++ borrow) pre t (x ℓ) (y ℓ') R) :
    Twin (laneBridge K s) borrow pre t (Lane.reading x) (Lane.reading y) R := by
  intro keep ℓ ℓ' hkeep hj
  obtain ⟨Z, M, S, hp, hZ, hl⟩ := hj
  obtain ⟨more, hmore, htwin⟩ := h ℓ ℓ' Z M S hp hZ
  have hagree := htwin (laneLinks Z M S + keep) ℓ.heap ℓ'.heap (fun l hl => by
      rcases List.mem_append.1 hl with hl | hl
      · exact Multiset.mem_add.2 (.inl (hmore l hl))
      · exact Multiset.mem_add.2 (.inr (hkeep l hl)))
    (by rwa [add_left_comm] at hl)
  have hjoin (P : Multiset Link) (h₁ h₁' : Heap) (hl : Linked K (P + (laneLinks Z M S + keep)) h₁ h₁') :
      Lane.Joined K s (P + keep) { ℓ with heap := h₁ } { ℓ' with heap := h₁' } := by
    refine ⟨Z, M, S, hp.heaps h₁ h₁', hZ, ?_⟩
    rwa [add_left_comm] at hl
  have hleft (h₁ : Heap) (ho : Owns (lefts (laneLinks Z M S + keep)) h₁) :
      Lane.Owns (lefts keep) { ℓ with heap := h₁ } := by
    rwa [lefts_add, hp.lefts_eq, add_comm] at ho
  have hright (h₁ : Heap) (ho : Owns (rights (laneLinks Z M S + keep)) h₁) :
      Lane.Owns (rights keep) { ℓ' with heap := h₁ } := by
    rwa [rights_add, hp.rights_eq, add_comm] at ho
  rw [Lane.reading_eq, Lane.reading_eq]
  exact Agreeing.within hagree hleft hright hjoin fun _ _ _ _ ⟨P, hP, hl⟩ => ⟨P, hP, hjoin P _ _ hl⟩

theorem twin_onHeap {x : HeapM α} {y : HeapM β} (h : Twin (heapBridge K) borrow pre t x y R) :
    Twin (laneBridge K s) borrow pre t (Lane.onHeap x) (Lane.onHeap y) R :=
  twin_reading fun _ _ _ _ _ _ _ => ⟨[], fun _ hl => (List.not_mem_nil hl).elim, h⟩

/-! ## Items -/

/-- Two items that stand for the same, with what they own. -/
def GivesItem (x y : Item) (P : Multiset Link) : Prop := P = {Link.both x y} ∧ x.Fits y

variable {base : Nat} {G : Graph} {ψ ψ' : Naming} {owned : Multiset Value} {h h' : Heap} {x y : Item}

theorem Represents.retain_item (hr : Represents G ψ owned h) (hx : x.refs ≤ owned)
    (hsym : x.sym ψ ≠ .unbound) :
    ∃ h₁, x.retain h = .ok () h₁ ∧ Represents G ψ (x.refs + owned) h₁ ∧
      h₁.cells.size = h.cells.size ∧ h₁.abandoned = h.abandoned := by
  cases x with
  | object v => exact hr.retain (hr.live_of_sym (Multiset.singleton_le.1 hx) hsym)
  | int n =>
    refine ⟨h, rfl, ?_, rfl, rfl⟩
    rwa [Item.refs, zero_add]

theorem Represents.release_item (hr : Represents G ψ (x.refs + owned) h) (hsym : x.sym ψ ≠ .unbound) :
    ∃ h₁, x.release h = .ok () h₁ ∧ Represents G ψ owned h₁ ∧
      h₁.cells.size = h.cells.size ∧ h₁.abandoned = h.abandoned := by
  cases x with
  | object v =>
    refine hr.releaseAll [v] ?_
    rintro (_ | ⟨_, hv⟩)
    · exact hsym rfl
    · cases hv
  | int n =>
    refine ⟨h, rfl, ?_, rfl, rfl⟩
    rwa [Item.refs, zero_add] at hr

theorem refs_le_lefts {P : Multiset Link} (hl : Link.both x y ∈ P) : x.refs ≤ lefts P := by
  obtain ⟨Q, rfl⟩ := Multiset.exists_cons_of_mem hl
  rw [← Multiset.singleton_add, lefts_add, lefts_singleton]
  exact Multiset.le_add_right _ _

theorem refs_le_rights {P : Multiset Link} (hl : Link.both x y ∈ P) : y.refs ≤ rights P := by
  obtain ⟨Q, rfl⟩ := Multiset.exists_cons_of_mem hl
  rw [← Multiset.singleton_add, rights_add, rights_singleton]
  exact Multiset.le_add_right _ _

theorem Bond.leads_shareItem {P : Multiset Link} (hb : Bond K.size G ψ ψ' P h h')
    (hl : Link.both x y ∈ P) :
    Leads K P (fun a b Q => a = x ∧ b = y ∧ Q = {Link.both x y}) h h'
      ((do x.retain; pure x : HeapM Item) h) ((do y.retain; pure y : HeapM Item) h') := by
  obtain ⟨hsame, hsym⟩ := hb.agrees _ hl
  obtain ⟨h₁, hok, hr, hsize, hab⟩ := hb.left.retain_item (refs_le_lefts hl) hsym
  obtain ⟨h₁', hok', hr', hsize', hab'⟩ := hb.right.retain_item (refs_le_rights hl) (hsame ▸ hsym)
  refine .inl ⟨x, y, h₁, h₁', bind_of_ok hok, bind_of_ok hok', hab, hab', _, ⟨rfl, rfl, rfl⟩, G, ψ, ψ',
    ?_, ?_, Bond.agrees_add hb.agrees (hb.agrees _ hl), hsize ▸ hb.size_left, hsize' ▸ hb.size_right,
    hb.names⟩
  · rwa [lefts_add, lefts_singleton]
  · rwa [rights_add, rights_singleton]

theorem twin_shareItem (hfit : x.Fits y) (hl : Link.both x y ∈ borrow) :
    Twin (heapBridge K) borrow 0 t (do x.retain; pure x : HeapM Item) (do y.retain; pure y : HeapM Item)
      GivesItem := by
  have htwin : Twin (heapBridge K) borrow 0 t (do x.retain; pure x : HeapM Item)
      (do y.retain; pure y : HeapM Item) fun a b Q => a = x ∧ b = y ∧ Q = {Link.both x y} := by
    refine .of_bond fun G ψ ψ' P h h' hb hborrow => ?_
    rw [zero_add] at hb
    exact hb.leads_shareItem (hborrow _ hl)
  refine htwin.imp fun a b Q hR => ?_
  obtain ⟨rfl, rfl, rfl⟩ := hR
  exact ⟨rfl, hfit⟩

theorem twin_releaseItem : Twin (heapBridge K) borrow {Link.both x y} t x.release y.release Done := by
  refine .of_bond fun G ψ ψ' P h h' hb _ => ?_
  obtain ⟨hsame, hsym⟩ := hb.agrees (.both x y) (by simp)
  have hleft := hb.left
  have hright := hb.right
  rw [lefts_add, lefts_singleton] at hleft
  rw [rights_add, rights_singleton] at hright
  obtain ⟨h₁, hok, hr, hsize, hab⟩ := hleft.release_item hsym
  obtain ⟨h₁', hok', hr', hsize', hab'⟩ := hright.release_item (hsame ▸ hsym)
  refine .inl ⟨(), (), h₁, h₁', hok, hok', hab, hab', 0, rfl, G, ψ, ψ', ?_⟩
  rw [zero_add]
  exact ⟨hr, hr', Bond.agrees_of_add hb.agrees, hsize ▸ hb.size_left, hsize' ▸ hb.size_right, hb.names⟩

theorem twin_boxItem : Twin (heapBridge K) borrow {Link.both x y} t x.box y.box Gives := by
  refine .of_bond fun G ψ ψ' P h h' hb _ => ?_
  cases x with
  | object v =>
    cases y with
    | object w => exact .inl ⟨v, w, h, h', rfl, rfl, rfl, rfl, _, rfl, G, ψ, ψ', hb⟩
    | int n => exact .inl ⟨v, _, h, _, rfl, rfl, rfl, rfl, _, rfl, G, ψ, _, hb.box_right⟩
  | int n =>
    cases y with
    | object w => exact .inl ⟨_, w, _, h', rfl, rfl, rfl, rfl, _, rfl, G, _, ψ', hb.box_left⟩
    | int m =>
      exact .inl ⟨_, _, _, _, rfl, rfl, rfl, rfl, _, rfl, G, _, _, hb.box_left.box_right⟩

/-- A number needs no owner. -/
theorem Bond.add_int {P : Multiset Link} (hb : Bond base G ψ ψ' P h h') (n : Int32) :
    Bond base G ψ ψ' ({.both (.int n) (.int n)} + P) h h' := by
  refine ⟨?_, ?_, Bond.agrees_add hb.agrees ⟨rfl, nofun⟩, hb.size_left, hb.size_right, hb.names⟩
  · rw [lefts_add, lefts_singleton, Link.lefts, Item.refs, zero_add]
    exact hb.left
  · rw [rights_add, rights_singleton, Link.rights, Item.refs, zero_add]
    exact hb.right

theorem twin_int (n : Int32) :
    Twin (heapBridge K) borrow 0 t (pure (.int n)) (pure (.int n)) GivesItem := by
  refine .of_bond fun G ψ ψ' P h h' hb _ => ?_
  rw [zero_add] at hb
  exact .inl ⟨_, _, h, h', rfl, rfl, rfl, rfl, _, ⟨rfl, id⟩, G, ψ, ψ', hb.add_int n⟩

/-- The same number, of which an object is made on the left. -/
theorem twin_newInt_int (n : Int32) :
    Twin (heapBridge K) borrow 0 t (Item.object <$> newInt n) (pure (.int n)) GivesItem := by
  refine .of_bond fun G ψ ψ' P h h' hb _ => ?_
  rw [zero_add] at hb
  exact .inl ⟨_, _, _, h', rfl, rfl, rfl, rfl, _, ⟨rfl, nofun⟩, G, _, ψ', (hb.add_int n).box_left⟩

theorem twin_object {f g : HeapM Value} (hfg : Twin (heapBridge K) borrow pre t f g Gives) :
    Twin (heapBridge K) borrow pre t (Item.object <$> f) (Item.object <$> g) GivesItem :=
  hfg.map fun _ _ _ hP => ⟨hP, nofun⟩

/-! ## Moves -/

theorem laneLinks_cons (p : Item × Item) (Z : List (Item × Item)) (M : List (Local × Local))
    (S : List (Value × Value)) :
    laneLinks (p :: Z) M S = {Link.both p.1 p.2} + laneLinks Z M S := by
  simp only [laneLinks, itemLinks_cons, add_assoc]

namespace Lane

theorem pop_nil (hℓ : ℓ.operands = []) : pop ℓ = .error .bounds ℓ := by simp only [pop, hℓ]

theorem pop_cons {x : Item} {rest : List Item} (hℓ : ℓ.operands = x :: rest) :
    pop ℓ = .ok x { ℓ with operands := rest } := by simp only [pop, hℓ]

theorem twin_pop : Twin (laneBridge K s) borrow 0 t pop pop GivesItem := by
  intro keep ℓ ℓ' _ hj
  rw [zero_add] at hj
  have hown : ℓ.Owns (lefts keep) := hj.owns_left
  obtain ⟨Z, M, S, hp, hZ, hl⟩ := hj
  cases Z with
  | nil =>
    rw [pop_nil hp.operands_left, pop_nil hp.operands_right]
    exact Agree.of_bounds hown
  | cons p Z =>
    obtain ⟨hfit, hZ⟩ := List.forall_mem_cons.1 hZ
    rw [pop_cons hp.operands_left, pop_cons hp.operands_right]
    refine ⟨_, ⟨rfl, hfit⟩, Z, M, S, { hp with operands_left := rfl, operands_right := rfl }, hZ, ?_⟩
    rwa [laneLinks_cons, add_assoc, add_left_comm] at hl

theorem Pairs.length_eq (hp : ℓ.Pairs s ℓ' Z M S) : ℓ'.operands.length = ℓ.operands.length := by
  rw [hp.operands_left, hp.operands_right, List.length_map, List.length_map]

theorem twin_push {mode mode' : Mode} (hmode : mode' = .eager → mode = .eager) (hfit : x.Fits y) :
    Twin (laneBridge K s) borrow {Link.both x y} t (push mode x) (push mode' y) Done := by
  intro keep ℓ ℓ' _ hj
  have hown : ℓ.Owns (lefts ({Link.both x y} + keep)) := hj.owns_left
  obtain ⟨Z, M, S, hp, hZ, hl⟩ := hj
  unfold push
  by_cases hfull : mode = .eager ∧ ℓ.capacity ≤ ℓ.operands.length
  · rw [if_pos hfull]
    refine Agree.of_bounds ?_
    rw [lefts_add, add_comm] at hown
    exact hown.mono
  · have hfull' : ¬(mode' = .eager ∧ ℓ'.capacity ≤ ℓ'.operands.length) := by
      rw [hp.length_eq, hp.setting_right, ← hp.setting_left]
      exact fun h => hfull ⟨hmode h.1, h.2⟩
    rw [if_neg hfull, if_neg hfull']
    refine ⟨0, rfl, (x, y) :: Z, M, S, ?_, List.forall_mem_cons.2 ⟨hfit, hZ⟩, ?_⟩
    · exact { hp with
        operands_left := congrArg (x :: ·) hp.operands_left
        operands_right := congrArg (y :: ·) hp.operands_right }
    · rw [laneLinks_cons, zero_add, add_assoc, add_left_comm]
      exact hl

theorem twin_makeInt {mode mode' : Mode} (hmode : mode' = .eager → mode = .eager) (n : Int32) :
    Twin (laneBridge K s) borrow 0 t (makeInt mode n) (makeInt mode' n) GivesItem := by
  refine twin_onHeap ?_
  cases mode with
  | eager =>
    cases mode' with
    | eager => exact twin_object (twin_alloc rfl)
    | lazy => exact twin_newInt_int n
  | lazy =>
    cases mode' with
    | eager => cases hmode rfl
    | lazy => exact twin_int n

theorem twin_shareTop : Twin (laneBridge K s) borrow 0 t shareTop shareTop GivesItem := by
  refine twin_reading fun ℓ ℓ' Z M S hp hZ => ?_
  cases Z with
  | nil =>
    rw [hp.operands_left, hp.operands_right]
    exact ⟨[], fun _ hl => (List.not_mem_nil hl).elim, Twin.bounds⟩
  | cons p Z =>
    have hfit := hZ p List.mem_cons_self
    rw [hp.operands_left, hp.operands_right]
    refine ⟨[Link.both p.1 p.2], fun l hl => ?_, ?_⟩
    · obtain rfl := List.mem_singleton.1 hl
      simp [laneLinks_cons]
    · exact twin_shareItem hfit (by simp)

/-- The locals at a position, among the others. -/
theorem Pairs.exists_local (hp : ℓ.Pairs s ℓ' Z M S) {i : Nat} {l : Local} (hl : ℓ.locals[i]? = some l) :
    ∃ A B l', M = A ++ (l, l') :: B ∧ A.length = i ∧ ℓ'.locals[i]? = some l' := by
  rw [hp.locals_left, List.getElem?_map, Option.map_eq_some_iff] at hl
  obtain ⟨⟨l, l'⟩, hM, rfl⟩ := hl
  obtain ⟨hlt, hget⟩ := List.getElem?_eq_some_iff.1 hM
  refine ⟨M.take i, M.drop (i + 1), l', ?_, List.length_take_of_le (Nat.le_of_lt hlt), ?_⟩
  · rw [← hget, List.getElem_cons_drop, List.take_append_drop]
  · rw [hp.locals_right, List.getElem?_map, hM]
    rfl

theorem Pairs.locals_none (hp : ℓ.Pairs s ℓ' Z M S) {i : Nat} (hl : ℓ.locals[i]? = none) :
    ℓ'.locals[i]? = none := by
  rw [hp.locals_left] at hl
  rw [hp.locals_right]
  simpa using hl

theorem twin_share (i : Nat) : Twin (laneBridge K s) borrow 0 t (share i) (share i) Gives := by
  refine twin_reading fun ℓ ℓ' Z M S hp _ => ?_
  cases hl : ℓ.locals[i]? with
  | none =>
    rw [hp.locals_none hl]
    exact ⟨[], fun _ hl => (List.not_mem_nil hl).elim, Twin.bounds⟩
  | some l =>
    obtain ⟨A, B, l', rfl, -, hl'⟩ := hp.exists_local hl
    rw [hl']
    by_cases hbound : l.value = .unbound
    · refine ⟨[], fun _ hl => (List.not_mem_nil hl).elim, ?_⟩
      simp only [hbound]
      exact Twin.bounds
    · refine ⟨[Link.pair l.value l'.value], fun k hk => ?_, twin_shared (by simp)⟩
      obtain rfl := List.mem_singleton.1 hk
      simp [laneLinks, localLinks_append, localLinks_cons, Local.links, hbound]

end Lane

theorem map_left_refs {v : Value} (hv : v ≠ .unbound) : v.refs.map Link.left = {Link.left v} := by
  rw [Value.refs, if_neg hv, Multiset.map_singleton]

theorem map_left_swap (s : Multiset Value) : (s.map Link.left).map .swap = s.map Link.right :=
  Multiset.map_map ..

theorem map_right_swap (s : Multiset Value) : (s.map Link.right).map .swap = s.map Link.left :=
  Multiset.map_map ..

theorem Linked.releaseBound_left {P : Multiset Link} {v : Value}
    (hl : Linked K (v.refs.map .left + P) h h') :
    ∃ h₁, releaseBound v h = .ok () h₁ ∧ Linked K P h₁ h' := by
  unfold releaseBound
  by_cases hv : v = .unbound
  · subst hv
    exact ⟨h, rfl, by rwa [Value.refs, if_pos rfl, Multiset.map_zero, zero_add] at hl⟩
  · rw [map_left_refs hv] at hl
    rw [if_pos (isBound_of_ne hv)]
    exact hl.release_left

/-- What two locals held can be given up on each side for itself. -/
theorem Linked.split_local {P : Multiset Link} {l l' : Local} (hf : l.Fits l')
    (hl : Linked K (l.links l' + P) h h') :
    Linked K (l.value.refs.map .left + (l.strays.map .left +
      (l'.value.refs.map .right + (l'.strays.map .right + P)))) h h' := by
  unfold Local.links at hl
  by_cases hv : l.value = .unbound
  · have hv' := hf.bound.1 hv
    rw [if_pos hv, zero_add, add_assoc] at hl
    rwa [hv, hv', Value.refs, if_pos rfl, Multiset.map_zero, Multiset.map_zero, zero_add, zero_add]
  · have hv' : l'.value ≠ .unbound := mt hf.bound.2 hv
    rw [if_neg hv, add_assoc, add_assoc] at hl
    have hl := hl.split
    rw [map_left_refs hv, Value.refs, if_neg hv', Multiset.map_singleton]
    rwa [add_left_comm {Link.right l'.value}] at hl

namespace Lane

theorem set_of_getElem? {α : Type} {xs : List α} {i : Nat} {x : α} (hx : xs[i]? = some x) :
    xs.set i x = xs := by
  obtain ⟨hlt, rfl⟩ := List.getElem?_eq_some_iff.1 hx
  exact List.set_getElem_self hlt

/-- Setting a local either leaves the value in its place for later or gives up the old value. -/
theorem setLocal_cases (how : Storing) {i : Nat} {v : Value} {l : Local} (hl : ℓ.locals[i]? = some l)
    (hv : v ≠ .unbound) (hstored : l.value = .unbound → l.displaced = none) :
    l.displaced = none ∧ setLocal how i v ℓ =
      .ok () { ℓ with locals := ℓ.locals.set i ⟨v, some l.value⟩ } ∨
    setLocal how i v ℓ =
      onHeap (releaseBound l.value) { ℓ with locals := ℓ.locals.set i ⟨v, l.displaced⟩ } := by
  have hrelease {w : Value} (hw : w ≠ .unbound) : release w = releaseBound w :=
    (if_pos (isBound_of_ne hw)).symm
  simp only [setLocal, hl]
  by_cases hsame : how = .unlessSame ∧ l = ⟨v, none⟩
  · obtain ⟨rfl, rfl⟩ := hsame
    right
    rw [if_pos ⟨rfl, rfl⟩, hrelease hv, set_of_getElem? hl]
  · rw [if_neg hsame]
    by_cases hlater : how ≠ .now ∧ l.displaced = none
    · rw [if_pos hlater]
      exact .inl ⟨hlater.2, rfl⟩
    · rw [if_neg hlater]
      right
      by_cases hnow : how = .now
      · rw [if_pos hnow]
      · have hd : l.displaced ≠ none := fun hd => hlater ⟨hnow, hd⟩
        rw [if_neg hnow, hrelease fun hu => hd (hstored hu)]

theorem setLocal_left (how : Storing) {i : Nat} {v : Value} {l : Local} {P : Multiset Link}
    (hl : ℓ.locals[i]? = some l) (hv : v ≠ .unbound)
    (hstored : l.value = .unbound → l.displaced = none)
    (hlinked : Linked K (l.value.refs.map .left + (l.strays.map .left + P)) ℓ.heap h') :
    ∃ d h₁, setLocal how i v ℓ = .ok () { ℓ with heap := h₁, locals := ℓ.locals.set i ⟨v, d⟩ } ∧
      Linked K ((Local.strays ⟨v, d⟩).map .left + P) h₁ h' := by
  obtain ⟨hd, hset⟩ | hset := setLocal_cases how hl hv hstored
  · refine ⟨some l.value, ℓ.heap, hset, ?_⟩
    have hnone : l.strays = 0 := by rw [Local.strays, hd]; rfl
    rwa [hnone, Multiset.map_zero, zero_add] at hlinked
  · obtain ⟨h₁, hok, hlinked⟩ := hlinked.releaseBound_left
    refine ⟨l.displaced, h₁, ?_, hlinked⟩
    rw [hset]
    simp only [onHeap, reading, hok]

theorem setLocal_right (how : Storing) {i : Nat} {v : Value} {l : Local} {P : Multiset Link}
    (hl : ℓ.locals[i]? = some l) (hv : v ≠ .unbound)
    (hstored : l.value = .unbound → l.displaced = none)
    (hlinked : Linked K (l.value.refs.map .right + (l.strays.map .right + P)) h' ℓ.heap) :
    ∃ d h₁, setLocal how i v ℓ = .ok () { ℓ with heap := h₁, locals := ℓ.locals.set i ⟨v, d⟩ } ∧
      Linked K ((Local.strays ⟨v, d⟩).map .right + P) h' h₁ := by
  have hlinked := hlinked.symm
  rw [Multiset.map_add, Multiset.map_add, map_right_swap, map_right_swap] at hlinked
  obtain ⟨d, h₁, hok, hlinked⟩ := setLocal_left how hl hv hstored hlinked
  refine ⟨d, h₁, hok, Linked.of_symm ?_⟩
  rwa [Multiset.map_add, map_right_swap]

theorem Pairs.set {A B : List (Local × Local)} {l l' k k' : Local}
    (hp : ℓ.Pairs s ℓ' Z (A ++ (l, l') :: B) S) (hk : k.Fits k') (h h' : Heap) :
    Lane.Pairs s { ℓ with heap := h, locals := ℓ.locals.set A.length k }
      { ℓ' with heap := h', locals := ℓ'.locals.set A.length k' } Z (A ++ (k, k') :: B) S := by
  have hset (f : Local × Local → Local) (j : Local) :
      ((A ++ (l, l') :: B).map f).set A.length j = A.map f ++ j :: B.map f := by
    simp [List.set_append_right]
  refine { hp with locals_left := ?_, locals_right := ?_, fits := ?_ }
  · simp only [hp.locals_left, hset]
    simp
  · simp only [hp.locals_right, hset]
    simp
  · intro p hm
    rcases List.mem_append.1 hm with hm | hm
    · exact hp.fits p (List.mem_append_left _ hm)
    · rcases List.mem_cons.1 hm with rfl | hm
      · exact hk
      · exact hp.fits p (List.mem_append_right _ (List.mem_cons_of_mem _ hm))

theorem laneLinks_insert (Z : List (Item × Item)) (A B : List (Local × Local)) (l l' : Local)
    (S : List (Value × Value)) :
    laneLinks Z (A ++ (l, l') :: B) S = l.links l' + laneLinks Z (A ++ B) S := by
  simp only [laneLinks, localLinks_append, localLinks_cons]
  abel

theorem twin_setLocal (how how' : Storing) (i : Nat) {v w : Value} :
    Twin (laneBridge K s) borrow {Link.pair v w} t (setLocal how i v) (setLocal how' i w) Done := by
  intro keep ℓ ℓ' _ hj
  have hown : ℓ.Owns (lefts ({Link.pair v w} + keep)) := hj.owns_left
  obtain ⟨Z, M, S, hp, hZ, hl⟩ := hj
  have hbound := hl.bound (v := v) (w := w) (by simp)
  cases hi : ℓ.locals[i]? with
  | none =>
    have hleft : setLocal how i v ℓ = .error .bounds ℓ := by simp only [setLocal, hi]
    rw [hleft]
    refine Agree.of_bounds ?_
    rw [lefts_add, add_comm] at hown
    exact hown.mono
  | some l =>
    obtain ⟨A, B, l', rfl, rfl, hi'⟩ := hp.exists_local hi
    have hfit : l.Fits l' := hp.fits (l, l') (by simp)
    -- First the values that are displaced are taken apart, then each side disposes of its own.
    rw [laneLinks_insert, add_assoc] at hl
    have hl := hl.split_local hfit
    obtain ⟨d, h₁, hok, hl⟩ := setLocal_left how hi hbound.1 (fun hu => (hfit.stored hu).1) hl
    rw [add_left_comm, add_left_comm ((Local.strays ⟨v, d⟩).map _)] at hl
    obtain ⟨d', h₁', hok', hl⟩ := setLocal_right how' hi' hbound.2
      (fun hu => (hfit.stored (hfit.bound.2 hu)).2) hl
    have hnew : Local.Fits ⟨v, d⟩ ⟨w, d'⟩ := by
      refine ⟨⟨fun hu => absurd hu hbound.1, fun hu => absurd hu hbound.2⟩, fun hu => ?_⟩
      exact absurd hu hbound.1
    rw [hok, hok']
    refine ⟨0, rfl, Z, _, S, hp.set hnew h₁ h₁', hZ, ?_⟩
    rw [laneLinks_insert, Local.links, if_neg hbound.1]
    convert hl using 1
    simp only [Local.strays]
    abel

/-! ## Storing what is pending -/

theorem box_left_step {x y : Item} {P : Multiset Link} (hl : Linked K ({Link.both x y} + P) h h') :
    ∃ v h₁, x.box h = .ok v h₁ ∧ Linked K ({Link.both (.object v) y} + P) h₁ h' := by
  cases x with
  | object v => exact ⟨v, h, rfl, hl⟩
  | int n => exact ⟨_, _, rfl, hl.box_left⟩

/-- Storing the operands of one side. The others keep what they stand for. -/
theorem storeOperands_left {P : Multiset Link} (R T : List (Item × Item))
    (hp : ℓ.Pairs s ℓ' (R.reverse ++ T) M S) (hroom : T.length ≤ ℓ.capacity)
    (hT : ∀ p ∈ T, p.1.isInt = false)
    (hl : Linked K (laneLinks (R.reverse ++ T) M S + P) ℓ.heap ℓ'.heap) :
    (∃ ℓ₁ Z₁, storeOperands (R.map Prod.fst) (T.map Prod.fst) ℓ = .ok () ℓ₁ ∧ ℓ₁.Pairs s ℓ' Z₁ M S ∧
      (∀ p ∈ Z₁, p.1.isInt = false) ∧ Z₁.length ≤ ℓ.capacity ∧
      Z₁.map Prod.snd = (R.reverse ++ T).map Prod.snd ∧
      Linked K (laneLinks Z₁ M S + P) ℓ₁.heap ℓ'.heap) ∨
    ∃ ℓ₁, storeOperands (R.map Prod.fst) (T.map Prod.fst) ℓ = .error .bounds ℓ₁ ∧
      ℓ₁.Owns (lefts P) ∧ ℓ.capacity < R.length + T.length := by
  induction R generalizing ℓ T with
  | nil => exact .inl ⟨ℓ, T, rfl, hp, hT, hroom, rfl, hl⟩
  | cons p R ih =>
    obtain ⟨x, y⟩ := p
    have hsplit (z : Item) : laneLinks (R.reverse ++ (z, y) :: T) M S =
        {Link.both z y} + laneLinks (R.reverse ++ T) M S := by
      have hitems : itemLinks (R.reverse ++ (z, y) :: T) =
          {Link.both z y} + itemLinks (R.reverse ++ T) := by
        simp only [itemLinks, List.map_append, List.map_cons, ← Multiset.coe_add, ← Multiset.cons_coe,
          ← Multiset.singleton_add]
        abel
      simp only [laneLinks, hitems]
      abel
    rw [List.reverse_cons, List.append_assoc, List.singleton_append] at hp hl ⊢
    rw [hsplit, add_assoc] at hl
    obtain ⟨v, h₁, hbox, hl⟩ := box_left_step hl
    have hp₁ : Lane.Pairs s { ℓ with
        heap := h₁
        operands := (R.map Prod.fst).reverse ++ .object v :: T.map Prod.fst } ℓ'
        (R.reverse ++ (.object v, y) :: T) M S := by
      refine { hp with operands_left := ?_, operands_right := ?_ }
      · simp
      · rw [hp.operands_right]
        simp
    rw [← add_assoc, ← hsplit] at hl
    have hstep : storeOperands ((x :: R.map Prod.fst)) (T.map Prod.fst) ℓ =
        if ℓ.capacity ≤ T.length then .error .bounds { ℓ with
          heap := h₁
          operands := (R.map Prod.fst).reverse ++ .object v :: T.map Prod.fst }
        else storeOperands (R.map Prod.fst) (.object v :: T.map Prod.fst) { ℓ with
          heap := h₁
          operands := (R.map Prod.fst).reverse ++ .object v :: T.map Prod.fst } := by
      have hheap : onHeap x.box ℓ = .ok v { ℓ with heap := h₁ } := by simp only [onHeap, reading, hbox]
      rw [storeOperands, bind_of_ok hheap]
      simp only [get_bind, modify_bind, List.length_map]
      split <;> rfl
    rw [List.map_cons, hstep]
    by_cases hfull : ℓ.capacity ≤ T.length
    · rw [if_pos hfull]
      exact .inr ⟨_, rfl, hp₁.owns_left hl, by simp only [List.length_cons]; omega⟩
    · rw [if_neg hfull]
      obtain ⟨ℓ₁, Z₁, hok, hp₂, hZ₁, hle, hsnd, hl₂⟩ | ⟨ℓ₁, herr, hown, hlt⟩ :=
        ih ((.object v, y) :: T) hp₁ (by simp only [List.length_cons]; omega)
          (List.forall_mem_cons.2 ⟨rfl, hT⟩) hl
      · exact .inl ⟨ℓ₁, Z₁, hok, hp₂, hZ₁, hle, hsnd.trans (by simp), hl₂⟩
      · exact .inr ⟨ℓ₁, herr, hown, by simp only [List.length_cons] at hlt ⊢; omega⟩

theorem Local.Fits.symm {l l' : Local} (hf : l.Fits l') : l'.Fits l :=
  ⟨hf.bound.symm, fun hu => (hf.stored (hf.bound.2 hu)).symm⟩

theorem Pairs.symm (hp : ℓ.Pairs s ℓ' Z M S) :
    ℓ'.Pairs s ℓ (Z.map Prod.swap) (M.map Prod.swap) (S.map Prod.swap) where
  setting_left := hp.setting_right
  setting_right := hp.setting_left
  operands_left := by rw [hp.operands_right, List.map_map]; rfl
  operands_right := by rw [hp.operands_left, List.map_map]; rfl
  locals_left := by rw [hp.locals_right, List.map_map]; rfl
  locals_right := by rw [hp.locals_left, List.map_map]; rfl
  scope_left := by rw [hp.scope_right, List.map_map]; rfl
  scope_right := by rw [hp.scope_left, List.map_map]; rfl
  fits := by
    intro p hm
    obtain ⟨q, hq, rfl⟩ := List.mem_map.1 hm
    exact Local.Fits.symm (hp.fits q hq)

theorem localLink_swap {l l' : Local} (hf : l.Fits l') : (l.links l').map .swap = l'.links l := by
  rw [Local.links, Local.links, Multiset.map_add, Multiset.map_add, map_left_swap, map_right_swap,
    add_right_comm]
  simp only [hf.bound]
  split <;> rfl

theorem localLinks_swap (hM : ∀ p ∈ M, p.1.Fits p.2) :
    (localLinks M).map .swap = localLinks (M.map Prod.swap) := by
  induction M with
  | nil => rfl
  | cons p M ih =>
    obtain ⟨hp, hM⟩ := List.forall_mem_cons.1 hM
    rw [localLinks_cons, Multiset.map_add, ih hM, localLink_swap hp]
    rfl

theorem itemLinks_swap (Z : List (Item × Item)) :
    (itemLinks Z).map .swap = itemLinks (Z.map Prod.swap) := by
  simp only [itemLinks, Multiset.map_coe, List.map_map]
  rfl

theorem Pairs.linked_symm {P : Multiset Link} (hp : ℓ.Pairs s ℓ' Z M S)
    (hl : Linked K (laneLinks Z M S + P) ℓ.heap ℓ'.heap) :
    Linked K (laneLinks (Z.map Prod.swap) (M.map Prod.swap) (S.map Prod.swap) + P.map .swap)
      ℓ'.heap ℓ.heap := by
  have hl := hl.symm
  rwa [Multiset.map_add, laneLinks, Multiset.map_add, Multiset.map_add, itemLinks_swap,
    localLinks_swap hp.fits, pairLinks_swap] at hl

theorem Pairs.of_linked_symm {P : Multiset Link} (hp : ℓ.Pairs s ℓ' Z M S)
    (hl : Linked K (laneLinks Z M S + P.map .swap) ℓ.heap ℓ'.heap) :
    Linked K (laneLinks (Z.map Prod.swap) (M.map Prod.swap) (S.map Prod.swap) + P)
      ℓ'.heap ℓ.heap := by
  have hl := hp.linked_symm hl
  rwa [map_swap_swap] at hl

theorem map_swap_list {α : Type} (l : List (α × α)) : (l.map Prod.swap).map Prod.swap = l := by
  rw [List.map_map, Prod.swap_swap_eq, List.map_id]

theorem sync_eq : sync ℓ = storeOperands ℓ.operands.reverse [] ℓ := rfl

/-- All operands of the left side are stored, unless there are too many. -/
theorem sync_left {P : Multiset Link} (hp : ℓ.Pairs s ℓ' Z M S)
    (hl : Linked K (laneLinks Z M S + P) ℓ.heap ℓ'.heap) :
    (∃ ℓ₁ Z₁, sync ℓ = .ok () ℓ₁ ∧ ℓ₁.Pairs s ℓ' Z₁ M S ∧ (∀ p ∈ Z₁, p.1.isInt = false) ∧
      Z₁.length ≤ ℓ.capacity ∧ Z₁.map Prod.snd = Z.map Prod.snd ∧
      Linked K (laneLinks Z₁ M S + P) ℓ₁.heap ℓ'.heap) ∨
    ∃ ℓ₁, sync ℓ = .error .bounds ℓ₁ ∧ ℓ₁.Owns (lefts P) ∧ ℓ.capacity < Z.length := by
  have hrev : Z = Z.reverse.reverse ++ [] := by simp
  rw [hrev] at hp hl
  have hstore := storeOperands_left Z.reverse [] hp (Nat.zero_le _) nofun hl
  rw [sync_eq, hp.operands_left]
  simpa using hstore

theorem twin_sync : Twin (laneBridge K s) borrow 0 t sync sync Done := by
  intro keep ℓ ℓ' _ hj
  rw [zero_add] at hj
  obtain ⟨Z, M, S, hp, -, hl⟩ := hj
  obtain ⟨ℓ₁, Z₁, hok, hp₁, hZ₁, hle, hsnd, hl₁⟩ | ⟨ℓ₁, herr, hown, -⟩ := sync_left hp hl
  · have hlen : Z₁.length = Z.length := by simpa using congrArg List.length hsnd
    obtain ⟨ℓ₁', Z₂, hok', hp₂, -, -, hfst, hl₂⟩ | ⟨ℓ₁', -, -, hlt⟩ :=
      sync_left hp₁.symm (hp₁.linked_symm hl₁)
    · rw [hok, hok']
      have hp₃ := hp₂.symm
      rw [map_swap_list, map_swap_list] at hp₃
      have hl₃ := hp₂.of_linked_symm hl₂
      rw [map_swap_list, map_swap_list] at hl₃
      refine ⟨0, rfl, _, M, S, hp₃, fun p hm => ?_, by rwa [zero_add]⟩
      -- The left side has no numbers any more.
      have hmem : p.1 ∈ Z₁.map Prod.fst := by
        rw [← hp₁.operands_left, hp₃.operands_left]
        exact List.mem_map_of_mem hm
      obtain ⟨q, hq, heq⟩ := List.mem_map.1 hmem
      intro hint
      rw [← heq, hZ₁ q hq] at hint
      cases hint
    · rw [List.length_map, hlen, hp.setting_right, ← hp.setting_left] at hlt
      omega
  · rw [herr]
    exact Agree.of_bounds hown

theorem storeLocal_left {P : Multiset Link} (i : Nat) (hp : ℓ.Pairs s ℓ' Z M S)
    (hl : Linked K (laneLinks Z M S + P) ℓ.heap ℓ'.heap) :
    ∃ ℓ₁ M₁, storeLocal i ℓ = .ok () ℓ₁ ∧ ℓ₁.Pairs s ℓ' Z M₁ S ∧
      Linked K (laneLinks Z M₁ S + P) ℓ₁.heap ℓ'.heap := by
  have hsame (hi : ∀ v p, ℓ.locals[i]? ≠ some ⟨v, some p⟩) : ∃ ℓ₁ M₁, storeLocal i ℓ = .ok () ℓ₁ ∧
      ℓ₁.Pairs s ℓ' Z M₁ S ∧ Linked K (laneLinks Z M₁ S + P) ℓ₁.heap ℓ'.heap := by
    refine ⟨ℓ, M, ?_, hp, hl⟩
    unfold storeLocal
    split
    · exact absurd (by assumption) (hi _ _)
    · rfl
  cases hi : ℓ.locals[i]? with
  | none => exact hsame (by simp [hi])
  | some l =>
    obtain ⟨v, _ | p⟩ := l
    · exact hsame (by simp [hi])
    · obtain ⟨A, B, l', rfl, rfl, hi'⟩ := hp.exists_local hi
      have hfit : Local.Fits ⟨v, some p⟩ l' := hp.fits (⟨v, some p⟩, l') (by simp)
      have hlinks : Local.links ⟨v, some p⟩ l' = p.refs.map .left + Local.links ⟨v, none⟩ l' := by
        simp only [Local.links, Local.strays, Option.map_some, Option.getD_some, Option.map_none,
          Option.getD_none, Multiset.map_zero]
        abel
      have hnew : Local.Fits ⟨v, none⟩ l' := ⟨hfit.bound, fun hu => ⟨rfl, (hfit.stored hu).2⟩⟩
      rw [laneLinks_insert, hlinks, add_assoc, add_assoc] at hl
      obtain ⟨h₁, hok, hl⟩ := hl.releaseBound_left
      refine ⟨{ ℓ with heap := h₁, locals := ℓ.locals.set A.length ⟨v, none⟩ },
        A ++ (⟨v, none⟩, l') :: B, ?_, ?_, ?_⟩
      · simp only [storeLocal, hi, onHeap, reading, hok]
      · have hset := hp.set hnew h₁ ℓ'.heap
        rwa [set_of_getElem? hi'] at hset
      · rw [laneLinks_insert, add_assoc]
        exact hl

theorem syncLocalsFrom_left {P : Multiset Link} (n i : Nat) (hp : ℓ.Pairs s ℓ' Z M S)
    (hl : Linked K (laneLinks Z M S + P) ℓ.heap ℓ'.heap) :
    ∃ ℓ₁ M₁, syncLocalsFrom n i ℓ = .ok () ℓ₁ ∧ ℓ₁.Pairs s ℓ' Z M₁ S ∧
      Linked K (laneLinks Z M₁ S + P) ℓ₁.heap ℓ'.heap := by
  induction n generalizing ℓ M i with
  | zero => exact ⟨ℓ, M, rfl, hp, hl⟩
  | succ n ih =>
    obtain ⟨ℓ₁, M₁, hok, hp, hl⟩ := storeLocal_left i hp hl
    obtain ⟨ℓ₂, M₂, hok₂, hrest⟩ := ih (i + 1) hp hl
    exact ⟨ℓ₂, M₂, (bind_of_ok hok).trans hok₂, hrest⟩

theorem twin_syncLocals : Twin (laneBridge K s) borrow 0 t syncLocals syncLocals Done := by
  intro keep ℓ ℓ' _ hj
  rw [zero_add] at hj
  obtain ⟨Z, M, S, hp, hZ, hl⟩ := hj
  obtain ⟨ℓ₁, M₁, hok, hp₁, hl₁⟩ := syncLocalsFrom_left ℓ.locals.length 0 hp hl
  obtain ⟨ℓ₁', M₂, hok', hp₂, hl₂⟩ := syncLocalsFrom_left ℓ'.locals.length 0 hp₁.symm
    (hp₁.linked_symm hl₁)
  have hp₃ := hp₂.symm
  rw [map_swap_list, map_swap_list] at hp₃
  have hl₃ := hp₂.of_linked_symm hl₂
  rw [map_swap_list, map_swap_list] at hl₃
  have hrun : syncLocals ℓ = .ok () ℓ₁ := hok
  have hrun' : syncLocals ℓ' = .ok () ℓ₁' := hok'
  rw [hrun, hrun']
  exact ⟨0, rfl, Z, _, S, hp₃, hZ, by rwa [zero_add]⟩

/-! ## Values that are not taken from the stack -/

theorem twin_supply (r : Supply) (hg : Link.pair s.global s.global ∈ borrow) :
    Twin (laneBridge K s) borrow 0 t (supply r) (supply r) Gives := by
  refine twin_reading fun ℓ ℓ' Z M S hp _ => ?_
  cases r with
  | getGlobalScope =>
    cases S with
    | nil =>
      refine ⟨[], fun _ hl => (List.not_mem_nil hl).elim, ?_⟩
      rw [hp.scope_left, hp.scope_right, hp.setting_left, hp.setting_right]
      exact twin_shared (by simpa using hg)
    | cons p S =>
      refine ⟨[Link.pair p.1 p.2], fun l hl => ?_, ?_⟩
      · obtain rfl := List.mem_singleton.1 hl
        simp [laneLinks, pairLinks]
      · rw [hp.scope_left, hp.scope_right]
        exact twin_shared (by simp)
  | pushNaN => exact ⟨[], fun _ hl => (List.not_mem_nil hl).elim, twin_alloc rfl⟩
  | _ => exact ⟨[], fun _ hl => (List.not_mem_nil hl).elim, twin_immortal (by simp) (by simp)⟩

theorem isPrimitive_of_body? {c : Constant} {pool : Pool} {i : Int32} {b : Body}
    (hb : c.body? pool i = some b) : b.isPrimitive = true := by
  unfold Constant.body? at hb
  split at hb
  · cases hb
  · cases c <;> obtain ⟨_, -, rfl⟩ := Option.map_eq_some_iff.1 hb <;> rfl

theorem twin_constant (c : Constant) (i : Int32) :
    Twin (laneBridge K s) borrow 0 t (constant c i) (constant c i) Gives := by
  refine twin_reading fun ℓ ℓ' Z M S hp _ => ⟨[], fun _ hl => (List.not_mem_nil hl).elim, ?_⟩
  rw [hp.setting_left, hp.setting_right]
  unfold Constant.make
  cases hb : c.body? s.method.constants i with
  | none => exact Twin.bounds
  | some b => exact twin_alloc (isPrimitive_of_body? hb)

end Lane

end MethodJit
