import MethodJit.Proofs.ArrayElements
import MethodJit.Proofs.CircularArrays
import MethodJit.Proofs.PropertyWalk
import MethodJit.Proofs.SelfComparison

/-!
# Routines that ask for texts

On every heap that stores and removals can build, the conversion to a text, addition, `in`, equality and the
creation of objects end. They do so with a result, unless the text that they ask for is that of a circular
array: then they never find it.
-/

namespace MethodJit

variable {h h' : Heap} {o v w x y : Value} {owned : Multiset Value} {name : String} {m : PropertyMap} {p : Prop}

/-! ## Building heaps -/

/-- What is done to build a heap. -/
inductive HeapOp
  /-- Undefined, null or a truth value. -/
  | immortal (v : Value)
  /-- A number, a text or a function. -/
  | fresh (b : Body)
  | newObject
  | newArray (elems : List Value)
  | set (o : Value) (name : String) (x : Value)
  | erase (o : Value) (name : String)
  /-- Another reference to a value that was found somewhere. -/
  | share (v : Value)
  | drop (v : Value)

namespace HeapOp

def run : HeapOp → HeapM Value
  | .immortal v => pure v
  | .fresh b => alloc b
  | .newObject => MethodJit.newObject none
  | .newArray elems => MethodJit.newArray elems.toArray
  | .set o name x => do
    setProperty o name x
    pure .undefined
  | .erase o name => do
    let removed ← deleteProperty o name
    pure (.bool removed)
  | .share v => shared v
  | .drop v => do
    release v
    pure .undefined

/-- The references that are handed over. -/
def takes : HeapOp → Multiset Value
  | .newArray elems => ↑elems
  | .set _ _ x => {x}
  | .drop v => {v}
  | _ => 0

/-- What is referred to exists. -/
def Fits (h : Heap) : HeapOp → Prop
  | .immortal v => v ≠ .unbound ∧ ∀ a, v ≠ .ref a
  | .fresh b => b.children = [] ∧ b.maker? = none
  | .set o _ _ => h.Live o
  | .erase o _ => h.Live o
  | .share v => h.Live v
  | _ => True

end HeapOp

/-- Heaps that are built by such steps from the empty one, and the references that their builder has. -/
inductive Heap.Built : Multiset Value → Heap → Prop
  | empty : Built 0 {}
  | step {owned : Multiset Value} {h h' : Heap} {r : Value} (op : HeapOp) (hbuilt : Built (op.takes + owned) h)
    (hfits : op.Fits h) (hok : op.run h = .ok r h') : Built ({r} + owned) h'

theorem accounted_empty : Accounted 0 {} where
  counts a := by simp [Heap.countAt, Heap.held, Heap.total]
  empty a c hc := by simp at hc
  bound a c hc := by simp at hc
  makers a c hc := by simp at hc

theorem Accounted.exists_alloc (hac : Accounted owned h) {b : Body} (hb : b.children = []) (hm : b.maker? = none) :
    ∃ v h', MethodJit.alloc b h = .ok v h' ∧ v ≠ .unbound ∧ Accounted ({v} + owned) h' := by
  refine ⟨.ref h.cells.size, h.extended b, rfl, nofun, Accounted.alloc ?_ ?_ ?_⟩
  · rwa [hb, Multiset.coe_nil, zero_add]
  · simp [hb]
  · simp [hm]

/-- A step takes the references that are handed over and gives one to its result. -/
theorem HeapOp.keeps_accounts {op : HeapOp} {r : Value} (hac : Accounted (op.takes + owned) h)
    (hbound : .unbound ∉ op.takes + owned) (hfits : op.Fits h) (hok : op.run h = .ok r h') :
    Accounted ({r} + owned) h' ∧ r ≠ .unbound := by
  have htakes : op.takes = 0 → Accounted owned h := fun h0 => by
    rwa [h0, zero_add] at hac
  cases op with
  | immortal v =>
    cases hok
    exact ⟨(htakes rfl).congr fun a => by simp [Ne.symm (hfits.2 a)], hfits.1⟩
  | fresh b =>
    obtain ⟨v, h₁, hok₁, hne, hac₁⟩ := (htakes rfl).exists_alloc hfits.1 hfits.2
    cases hok₁.symm.trans hok
    exact ⟨hac₁, hne⟩
  | newObject =>
    obtain ⟨v, h₁, hok₁, hne, hac₁⟩ := (htakes rfl).exists_alloc (b := .object {} none) rfl rfl
    cases hok₁.symm.trans hok
    exact ⟨hac₁, hne⟩
  | newArray elems =>
    cases hok
    refine ⟨Accounted.alloc ?_ ?_ nofun, nofun⟩
    · exact hac
    · exact fun hm => hbound (Multiset.mem_add.2 (.inl hm))
  | set o name x =>
    have hb : Bond h.origin.size h.graph .node .node ({Link.pair x x} + ownLinks owned) h h := by
      have hb := hac.bond hbound
      rwa [ownLinks_add] at hb
    obtain ⟨⟨⟩, h₁, hset, hpure⟩ := bind_eq_ok hok
    cases hpure
    obtain ⟨Q, rfl, hac', -⟩ := (hb.leads_setProperty ⟨hfits, hfits, rfl⟩ name).accounted hset
    exact ⟨hac'.congr fun a => by simp, nofun⟩
  | erase o name =>
    have hb : Bond h.origin.size h.graph .node .node (0 + ownLinks owned) h h := by
      have hb := hac.bond hbound
      rwa [ownLinks_add] at hb
    obtain ⟨removed, h₁, herase, hpure⟩ := bind_eq_ok hok
    cases hpure
    obtain ⟨Q, ⟨-, rfl⟩, hac', -⟩ := (hb.leads_deleteProperty ⟨hfits, hfits, rfl⟩ name).accounted herase
    exact ⟨hac'.congr fun a => by simp, nofun⟩
  | share v =>
    obtain ⟨h₁, hretain, hac₁, -⟩ := (htakes rfl).exists_retain hfits
    cases (bind_of_ok hretain).symm.trans hok
    exact ⟨by rwa [add_comm], hfits.ne_unbound⟩
  | drop v =>
    have hv : v ≠ .unbound := by
      rintro rfl
      exact hbound (by simp [HeapOp.takes])
    have hac : Accounted (owned + {v}) h := by rwa [add_comm]
    obtain ⟨h₁, hrelease, hac₁⟩ := hac.exists_release hv
    cases (bind_of_ok hrelease).symm.trans hok
    exact ⟨hac₁.congr fun a => by simp, nofun⟩

theorem Heap.Built.accounted (hbuilt : Heap.Built owned h) : Accounted owned h ∧ .unbound ∉ owned := by
  induction hbuilt with
  | empty => exact ⟨accounted_empty, by simp⟩
  | step _ _ hfits hok ih =>
    obtain ⟨hac, hne⟩ := HeapOp.keeps_accounts ih.1 ih.2 hfits hok
    refine ⟨hac, fun hm => ?_⟩
    rcases Multiset.mem_add.1 hm with hm | hm
    · exact hne (Multiset.mem_singleton.1 hm).symm
    · exact ih.2 (Multiset.mem_add.2 (.inr hm))

/-! ## Arrays that stay -/

/-- Live values are arrays as before, with the same elements. -/
def Heap.SparesArrays (h h' : Heap) : Prop := ∀ v elems, h'.Live v →
  (h'.body? v = some (.array elems) ↔ h.body? v = some (.array elems))

theorem Heap.Relieved.sparesArrays (hr : h.Relieved h') : h.SparesArrays h' := fun _ _ hv => by
  rw [hr.body?_of_live hv]

theorem Heap.sparesArrays_extended {b : Body} (hb : ∀ elems, b ≠ .array elems) : h.SparesArrays (h.extended b) := by
  intro v elems hv
  cases v with
  | ref a =>
    simp only [Heap.body?, Heap.cell?, cells_extended]
    by_cases ha : a = h.cells.size
    · simp [ha, hb elems]
    · simp [ha]
  | _ => exact Iff.rfl

theorem body?_of_setBody {b : Body} (hset : setBody o b h = .ok () h') (v : Value) :
    h'.body? v = if v = o then some b else h.body? v := by
  cases o with
  | ref a =>
    cases hc : h.cells[a]? with
    | none => simp [setBody, hc] at hset
    | some c =>
      simp only [setBody, hc] at hset
      cases hset
      cases v with
      | ref k =>
        simp only [Heap.body?, Heap.cell?, cells_setCell hc, Value.ref.injEq]
        by_cases hk : k = a <;> simp [hk]
      | _ => simp [Heap.body?, Heap.cell?]
  | _ => cases hset

/-- An object takes another property, which leaves all arrays alone but those that die of it. -/
theorem Heap.Tabulates.sparesArrays_set (ho : h.Tabulates o m) (hok : setProperty o name x h = .ok () h') :
    h.SparesArrays h' := by
  obtain ⟨t, maker, hbody, ht⟩ := ho
  unfold setProperty at hok
  rw [get_bind, hbody] at hok
  simp only [ht.writable, if_true] at hok
  obtain ⟨⟨⟩, h₁, hset, hrest⟩ := bind_eq_ok hok
  have hstored (v : Value) (elems : Array Value) :
      h₁.body? v = some (.array elems) ↔ h.body? v = some (.array elems) := by
    rw [body?_of_setBody hset]
    by_cases hv : v = o
    · rw [if_pos hv, hv, hbody]
      simp
    · rw [if_neg hv]
  intro v elems hv
  rw [← hstored]
  cases hold : t.find? name with
  | none =>
    simp only [hold] at hrest
    cases hrest
    exact Iff.rfl
  | some old =>
    simp only [hold] at hrest
    have hr : h₁.Relieved h' := Cascade.relieved_of_steps (s := ⟨[old], h₁⟩) (Cascade.steps_of_releaseAll [old] hrest)
    rw [hr.body?_of_live hv]

theorem Heap.SparesArrays.circular_iff (hsame : h.SparesArrays h') (hac : Accounted owned h') (hv : h'.Live v) :
    h'.Circular v ↔ h.Circular v := by
  have hlive {x y : Value} (hx : h'.Live x) (hxy : h'.Nests x y) : h'.Live y := by
    obtain ⟨elems, hbody, hy⟩ := hxy
    exact hac.live_child hx hbody (Array.mem_toList_iff.2 hy)
  have hnests (x y : Value) (hx : h'.Live x) : h'.Nests x y ↔ h.Nests x y :=
    exists_congr fun elems => and_congr_left' (hsame x elems hx)
  constructor
  · exact .of_closed (fun x y hx hxy => ⟨(hnests x y hx).1 hxy, hlive hx hxy⟩) hv
  · exact .of_closed (fun x y hx hxy => ⟨(hnests x y hx).2 hxy, hlive hx ((hnests x y hx).2 hxy)⟩) hv

/-! ## Asking for texts -/

theorem textOf_circular (hbound : h.Bound) (hv : h.Circular v) : textOf v h = .error .endless h := by
  have htext : h.toText v = .error .endless := hbound.textWithin_circular hv _
  unfold textOf
  rw [htext]

theorem exists_textOf (hbound : h.Bound) (hv : ¬h.Circular v) : ∃ s, textOf v h = .ok s h := by
  obtain ⟨s, hs⟩ := (hbound.exists_toText_iff v).2 hv
  unfold textOf
  exact ⟨s, by rw [hs]⟩

/-- An action that does not end under a condition, and otherwise gives references for those that it takes. -/
structure EndsUnless {α : Type} (p : Prop) (gives : α → Multiset Value) (owned : Multiset Value)
    (r : EStateM.Result Fault Heap α) : Prop where
  endless : p → ∃ h', r = .error .endless h' ∧ Accounted owned h'
  ends : ¬p → ∃ a h', r = .ok a h' ∧ Accounted (gives a + owned) h'

namespace EndsUnless

variable {α β : Type} {gives : α → Multiset Value} {act : HeapM α}

theorem consuming (hx : x ≠ .unbound) (hact : EndsUnless p gives ({x} + owned) (act h)) :
    EndsUnless p gives owned (consuming x act h) where
  endless hp := by
    obtain ⟨h₁, hact, hac₁⟩ := hact.endless hp
    rw [add_comm] at hac₁
    obtain ⟨h₂, hrelease, hac₂⟩ := hac₁.exists_release hx
    refine ⟨h₂, ?_, hac₂⟩
    rw [MethodJit.consuming, if_pos (isBound_of_ne hx), ensuring_of_error hact, bind_of_ok hrelease]
    rfl
  ends hp := by
    obtain ⟨a, h₁, hact, hac₁⟩ := hact.ends hp
    rw [add_left_comm, add_comm] at hac₁
    obtain ⟨h₂, hrelease, hac₂⟩ := hac₁.exists_release hx
    exact ⟨a, h₂, consuming_of_ok hx hact hrelease, hac₂⟩

theorem map {gives' : β → Multiset Value} {f : α → β} (hact : EndsUnless p gives owned (act h))
    (hf : ∀ a b, (gives' (f a)).count (.ref b) = (gives a).count (.ref b)) :
    EndsUnless p gives' owned ((f <$> act) h) where
  endless hp := by
    obtain ⟨h₁, hact, hac₁⟩ := hact.endless hp
    exact ⟨h₁, by simp only [Functor.map, EStateM.map, hact], hac₁⟩
  ends hp := by
    obtain ⟨a, h₁, hact, hac₁⟩ := hact.ends hp
    refine ⟨f a, h₁, by simp only [Functor.map, EStateM.map, hact], hac₁.congr fun b => ?_⟩
    rw [Multiset.count_add, Multiset.count_add, hf]

/-- A text is asked for first. -/
theorem textOf {k : String → HeapM α} (hac : Accounted owned h)
    (hk : ∀ s, EndsUnless p gives owned (k s h)) :
    EndsUnless (h.Circular v ∨ p) gives owned ((MethodJit.textOf v >>= k) h) where
  endless hp := by
    by_cases hv : h.Circular v
    · exact ⟨h, bind_of_error (textOf_circular hac.bound hv), hac⟩
    · obtain ⟨s, hs⟩ := exists_textOf hac.bound hv
      rw [bind_of_ok hs]
      exact (hk s).endless (hp.resolve_left hv)
  ends hp := by
    obtain ⟨hv, hp⟩ := not_or.1 hp
    obtain ⟨s, hs⟩ := exists_textOf hac.bound hv
    rw [bind_of_ok hs]
    exact (hk s).ends hp

theorem pure (hac : Accounted owned h) {a : α} (ha : ∀ b, (gives a).count (.ref b) = 0) :
    EndsUnless False gives owned ((Pure.pure a : HeapM α) h) where
  endless := False.elim
  ends _ := ⟨a, h, rfl, hac.congr fun b => by rw [Multiset.count_add, ha, zero_add]⟩

theorem alloc (hac : Accounted owned h) {b : Body} (hb : b.children = []) (hm : b.maker? = none) :
    EndsUnless False (fun v => {v}) owned (MethodJit.alloc b h) where
  endless := False.elim
  ends _ := by
    obtain ⟨v, h', hok, -, hac'⟩ := hac.exists_alloc hb hm
    exact ⟨v, h', hok, hac'⟩

theorem newNumeric (hac : Accounted owned h) (d : Double) :
    EndsUnless False (fun v => {v}) owned (MethodJit.newNumeric d h) := by
  unfold MethodJit.newNumeric
  cases d.toInt32? with
  | none => exact alloc hac rfl rfl
  | some n => exact alloc hac rfl rfl

theorem congr {q : Prop} {r : EStateM.Result Fault Heap α} (hr : EndsUnless p gives owned r) (hpq : q ↔ p) :
    EndsUnless q gives owned r := propext hpq ▸ hr

end EndsUnless

theorem Heap.Circular.kind (hv : h.Circular v) : h.kind? v = some .array := by
  obtain ⟨a, rfl⟩ := hv.exists_ref
  obtain ⟨elems, hbody⟩ := hv.exists_array
  simp [Heap.kind?, hbody, Body.kind]

theorem kindOf_of_kind? {k : Kind} (hk : h.kind? v = some k) : kindOf v h = .ok k h := by
  unfold kindOf
  rw [hk]

theorem endsUnless_convertS (hac : Accounted ({x} + owned) h) (hx : x ≠ .unbound) :
    EndsUnless (h.Circular x) (fun v => {v}) owned (Unary.convertS.run x h) := by
  obtain ⟨k, hk⟩ := (hac.live_of_mem (by simp) hx).exists_kind
  simp only [Unary.run, convertToString]
  rw [bind_of_ok (kindOf_of_kind? hk)]
  by_cases hstring : k = .string
  · have hflat : ¬h.Circular x := fun hcirc => by
      cases hcirc.kind.symm.trans (hk.trans (congrArg some hstring))
    subst hstring
    exact ⟨fun hcirc => absurd hcirc hflat, fun _ => ⟨x, h, rfl, hac⟩⟩
  · have htext : EndsUnless (h.Circular x ∨ False) (fun v => {v}) ({x} + owned)
        ((textOf x >>= fun s => newString s) h) :=
      EndsUnless.textOf hac fun s => .alloc hac rfl rfl
    have hrun := (htext.congr (or_iff_left not_false).symm).consuming hx
    cases k with
    | string => exact absurd rfl hstring
    | _ => exact hrun

theorem endsUnless_add (hac : Accounted ({y} + ({x} + owned)) h) (hx : x ≠ .unbound) (hy : y ≠ .unbound) :
    EndsUnless (h.Circular x ∨ h.Circular y) (fun v => {v}) owned (Binary.add.run x y h) := by
  obtain ⟨k, hk⟩ := (hac.live_of_mem (by simp) hx).exists_kind
  obtain ⟨l, hl⟩ := (hac.live_of_mem (by simp) hy).exists_kind
  refine .consuming hx (.consuming hy ?_)
  rw [bind_of_ok (kindOf_of_kind? hk), bind_of_ok (kindOf_of_kind? hl)]
  by_cases htextual : k.isTextual || l.isTextual
  · rw [if_pos htextual]
    refine (EndsUnless.textOf hac fun s => EndsUnless.textOf hac fun t => ?_).congr
      (or_congr_right (or_iff_left not_false).symm)
    exact .alloc hac rfl rfl
  · rw [if_neg htextual]
    have hflat : ¬(h.Circular x ∨ h.Circular y) := by
      rintro (hcirc | hcirc)
      · cases hcirc.kind.symm.trans hk
        exact htextual rfl
      · cases hcirc.kind.symm.trans hl
        exact htextual (Bool.or_true _)
    exact (EndsUnless.newNumeric hac _).congr (iff_false_intro hflat)

theorem endsUnless_inObject (hac : Accounted ({y} + ({x} + owned)) h) (hx : x ≠ .unbound) (hy : y ≠ .unbound) :
    EndsUnless (h.Circular x) (fun v => {v}) owned (Binary.inObject.run x y h) := by
  refine .consuming hx (.consuming hy ?_)
  refine (EndsUnless.textOf hac fun s => ?_).congr (or_iff_left not_false).symm
  exact .pure hac fun b => by simp

namespace Kind

/-- Objects, arrays and functions. -/
def isCompound : Kind → Bool
  | .object | .array | .function => true
  | _ => false

/-- Values of these kinds are equal if their texts are. -/
def comparesTexts (k l : Kind) : Bool :=
  (k.isCompound && (l.isNumeric || l = .string)) || (l.isCompound && (k.isNumeric || k = .string))

end Kind

theorem comparesTexts_eq (k l : Kind) : k.comparesTexts l = (!(k.isNullish || l.isNullish) &&
    !(k = l || (k.isNumeric && l.isNumeric)) && !(k = .boolean || l = .boolean || (k.isNumeric && l = .string) ||
      (k = .string && l.isNumeric)) && (l = .string || l.isNumeric || k = .string || k.isNumeric)) := by
  cases k <;> cases l <;> rfl

theorem looseEquals_texts {k l : Kind} (hk : h.kind? x = some k) (hl : h.kind? y = some l)
    (htexts : k.comparesTexts l = true) : looseEquals x y h = (do
      let s ← textOf x
      let t ← textOf y
      if s = t then pure true else numericallyEqual x y : HeapM Bool) h := by
  rw [comparesTexts_eq] at htexts
  simp only [Bool.and_eq_true, Bool.not_eq_true'] at htexts
  obtain ⟨⟨⟨hnullish, hsame⟩, hflat⟩, htexts⟩ := htexts
  unfold looseEquals
  rw [bind_of_ok (kindOf_of_kind? hk), bind_of_ok (kindOf_of_kind? hl)]
  simp only [hnullish, hsame, hflat, htexts, if_true, Bool.false_eq_true, if_false]

theorem exists_looseEquals {k l : Kind} (hk : h.kind? x = some k) (hl : h.kind? y = some l)
    (htexts : k.comparesTexts l = false) : ∃ b, looseEquals x y h = .ok b h := by
  rw [comparesTexts_eq] at htexts
  unfold looseEquals
  rw [bind_of_ok (kindOf_of_kind? hk), bind_of_ok (kindOf_of_kind? hl)]
  split_ifs with hnullish hsame hflat hasks
  · exact ⟨_, rfl⟩
  · exact ⟨_, rfl⟩
  · exact ⟨_, rfl⟩
  · rw [Bool.eq_false_of_not_eq_true hnullish, Bool.eq_false_of_not_eq_true hsame,
      Bool.eq_false_of_not_eq_true hflat, hasks] at htexts
    cases htexts
  · exact ⟨_, rfl⟩

/-- The values of which an equality asks for the texts. -/
def Heap.equalsAsks (h : Heap) (x y : Value) : List Value :=
  match h.kind? x, h.kind? y with
  | some k, some l => if k.comparesTexts l then [x, y] else []
  | _, _ => []

theorem endsUnless_equals (hac : Accounted ({y} + ({x} + owned)) h) (hx : x ≠ .unbound) (hy : y ≠ .unbound) :
    EndsUnless (∃ z ∈ h.equalsAsks x y, h.Circular z) (fun v => {v}) owned (Binary.equals.run x y h) := by
  obtain ⟨k, hk⟩ := (hac.live_of_mem (by simp) hx).exists_kind
  obtain ⟨l, hl⟩ := (hac.live_of_mem (by simp) hy).exists_kind
  have hcomparing (hends : EndsUnless (∃ z ∈ h.equalsAsks x y, h.Circular z) (fun _ : Bool => 0)
      ({y} + ({x} + owned)) (looseEquals x y h)) := (hends.consuming hy).consuming hx
  refine (hcomparing ?_).map fun b a => by simp
  simp only [Heap.equalsAsks, hk, hl]
  cases htexts : k.comparesTexts l with
  | true =>
    rw [looseEquals_texts hk hl htexts]
    refine (EndsUnless.textOf hac fun s => EndsUnless.textOf hac fun t => ?_).congr (p := _ ∨ _ ∨ False) (by simp)
    by_cases hst : s = t
    · rw [if_pos hst]
      exact .pure hac fun _ => rfl
    · rw [if_neg hst]
      exact .pure hac fun _ => rfl
  | false =>
    obtain ⟨b, hb⟩ := exists_looseEquals hk hl htexts
    rw [hb]
    exact (EndsUnless.pure hac fun _ => rfl).congr (by simp)

/-! ## New objects -/

/-- Names and values one after another. -/
def alternate (pairs : List (Value × Value)) : List Value := pairs.flatMap fun p => [p.1, p.2]

theorem alternate_cons (n x : Value) (pairs : List (Value × Value)) :
    alternate ((n, x) :: pairs) = n :: x :: alternate pairs := rfl

/-- The names are asked for their texts in turn; those that follow are as circular as they were at first. -/
theorem storePairs_cases {pairs : List (Value × Value)} (ho : h.Tabulates o m) (hmem : o ∈ owned)
    (hbound : .unbound ∉ alternate pairs) (hac : Accounted (↑(alternate pairs) + owned) h) :
    ((∃ p ∈ pairs, h.Circular p.1) → ∃ h', storePairs o (alternate pairs) h = .error .endless h') ∧
    ((∀ p ∈ pairs, ¬h.Circular p.1) → ∃ h', storePairs o (alternate pairs) h = .ok () h' ∧ Accounted owned h') := by
  induction pairs generalizing h m with
  | nil => exact ⟨by simp, fun _ => ⟨h, rfl, by simpa [alternate] using hac⟩⟩
  | cons pair pairs ih =>
    obtain ⟨n, x⟩ := pair
    rw [alternate_cons] at hbound hac ⊢
    simp only [List.mem_cons, not_or] at hbound
    obtain ⟨hn, hx, hrest⟩ := hbound
    unfold storePairs
    by_cases hcirc : h.Circular n
    · rw [bind_of_error (textOf_circular hac.bound hcirc)]
      exact ⟨fun _ => ⟨h, rfl⟩, fun hall => absurd hcirc (hall (n, x) List.mem_cons_self)⟩
    obtain ⟨s, hs⟩ := exists_textOf hac.bound hcirc
    rw [bind_of_ok hs]
    have hgiven : (↑(n :: x :: alternate pairs) + owned : Multiset Value) =
        x ::ₘ (↑(alternate pairs) + owned + {n}) := by
      simp only [← Multiset.cons_coe, ← Multiset.singleton_add]
      abel
    rw [hgiven] at hac
    obtain ⟨h₁, hset, hac₁, ho₁⟩ := ho.exists_set hac (x := x) (by simp [hmem]) (Ne.symm hx) (by simp) s
    rw [Multiset.erase_cons_head] at hac₁
    obtain ⟨h₂, hrelease, hac₂, hr⟩ := hac₁.exists_release_relieved (Ne.symm hn)
    have hlive₂ {v : Value} (hv : v ∈ ↑(alternate pairs) + owned) (hne : v ≠ .unbound) : h₂.Live v :=
      hac₂.live_of_mem hv hne
    have ho₂ : h₂.Tabulates o (m.set s x) := by
      obtain ⟨t, maker, hbody, ht⟩ := ho₁
      have hlive := hlive₂ (Multiset.mem_add.2 (.inr hmem)) (ne_unbound_of_body? hbody)
      exact ⟨t, maker, (hr.body?_of_live hlive).trans hbody, ht⟩
    have hstays (p : Value × Value) (hp : p ∈ pairs) : h₂.Circular p.1 ↔ h.Circular p.1 := by
      have hname : p.1 ∈ alternate pairs := List.mem_flatMap.2 ⟨p, hp, by simp⟩
      have hne : p.1 ≠ .unbound := ne_of_mem_of_not_mem hname hrest
      have hkept : p.1 ∈ (↑(alternate pairs) + owned : Multiset Value) := Multiset.mem_add.2 (.inl hname)
      have hlive₁ := hac₁.live_of_mem (Multiset.mem_add.2 (.inl hkept)) hne
      rw [hr.sparesArrays.circular_iff hac₂ (hlive₂ hkept hne), (ho.sparesArrays_set hset).circular_iff hac₁ hlive₁]
    obtain ⟨herr, hok⟩ := ih ho₂ hrest hac₂
    rw [bind_of_ok hset, bind_of_ok hrelease]
    refine ⟨?_, fun hall => hok fun p hp => ?_⟩
    · rintro ⟨p, hp, hpcirc⟩
      rcases List.mem_cons.1 hp with rfl | hp
      · exact absurd hpcirc hcirc
      · exact herr ⟨p, hp, (hstays p hp).2 hpcirc⟩
    · rw [hstays p hp]
      exact hall p (List.mem_cons_of_mem _ hp)

/-- A new object with these names and values. -/
def objectOf (pairs : List (Value × Value)) : HeapM Value := do
  let o ← newObject none
  storePairs o (alternate pairs)
  pure o

/-- The new object is not among the names, which are as circular as before it was made. -/
theorem newObject_cases {pairs : List (Value × Value)} (hbound : .unbound ∉ alternate pairs)
    (hac : Accounted (↑(alternate pairs) + owned) h) :
    ((∃ p ∈ pairs, h.Circular p.1) → ∃ h', objectOf pairs h = .error .endless h') ∧
    ((∀ p ∈ pairs, ¬h.Circular p.1) → ∃ v h', objectOf pairs h = .ok v h' ∧ Accounted ({v} + owned) h') := by
  let o : Value := .ref h.cells.size
  let h₁ := h.extended (.object {} none)
  have hnew : newObject none h = .ok o h₁ := rfl
  have hac₁ : Accounted (↑(alternate pairs) + ({o} + owned)) h₁ := by
    rw [add_left_comm]
    refine Accounted.alloc ?_ (by simp [Body.children]) nofun
    rwa [Body.children, List.map_nil, Multiset.coe_nil, zero_add]
  have ho : h₁.Tabulates o .empty := by
    refine ⟨{}, none, ?_, tabulates_empty⟩
    simp [Heap.body?, Heap.cell?, o, h₁, cells_extended]
  have hstays (p : Value × Value) (hp : p ∈ pairs) : h₁.Circular p.1 ↔ h.Circular p.1 := by
    have hname : p.1 ∈ alternate pairs := List.mem_flatMap.2 ⟨p, hp, by simp⟩
    have hlive := hac₁.live_of_mem (Multiset.mem_add.2 (.inl hname)) (ne_of_mem_of_not_mem hname hbound)
    refine (Heap.sparesArrays_extended fun elems heq => ?_).circular_iff hac₁ hlive
    cases heq
  obtain ⟨herr, hok⟩ := storePairs_cases ho (by simp) hbound hac₁
  unfold objectOf
  rw [bind_of_ok hnew]
  constructor
  · rintro ⟨p, hp, hcirc⟩
    obtain ⟨h', herr⟩ := herr ⟨p, hp, (hstays p hp).2 hcirc⟩
    exact ⟨h', bind_of_error herr⟩
  · intro hall
    obtain ⟨h', hok, hac'⟩ := hok fun p hp => mt (hstays p hp).1 (hall p hp)
    exact ⟨o, h', bind_of_ok hok, hac'⟩

/-! ## All of them -/

/-- The routines that ask for texts, with their operands. -/
inductive TextRoutine
  | convertS (x : Value)
  | add (x y : Value)
  | inObject (x y : Value)
  | equals (x y : Value)
  /-- A new object with these names and values. -/
  | newObject (pairs : List (Value × Value))

namespace TextRoutine

def run : TextRoutine → HeapM Value
  | .convertS x => Unary.convertS.run x
  | .add x y => Binary.add.run x y
  | .inObject x y => Binary.inObject.run x y
  | .equals x y => Binary.equals.run x y
  | .newObject pairs => objectOf pairs

/-- The operands, to which the references are given up. -/
def operands : TextRoutine → List Value
  | .convertS x => [x]
  | .add x y => [y, x]
  | .inObject x y => [y, x]
  | .equals x y => [y, x]
  | .newObject pairs => alternate pairs

/-- The values of which it asks for the texts. -/
def asks (h : Heap) : TextRoutine → List Value
  | .convertS x => [x]
  | .add x y => [x, y]
  | .inObject x _ => [x]
  | .equals x y => h.equalsAsks x y
  | .newObject pairs => pairs.map (·.1)

/-- It ends unless it asks for the text of a circular value. -/
theorem run_cases {r : TextRoutine} (hac : Accounted (↑r.operands + owned) h) (hbound : .unbound ∉ r.operands) :
    ((∃ x ∈ r.asks h, h.Circular x) → ∃ h', r.run h = .error .endless h') ∧
    ((∀ x ∈ r.asks h, ¬h.Circular x) → ∃ v h', r.run h = .ok v h' ∧ Accounted ({v} + owned) h') := by
  -- Routines that give up their operands in any case.
  have hends (hr : EndsUnless (∃ x ∈ r.asks h, h.Circular x) (fun v => {v}) owned (r.run h)) :
      ((∃ x ∈ r.asks h, h.Circular x) → ∃ h', r.run h = .error .endless h') ∧
      ((∀ x ∈ r.asks h, ¬h.Circular x) → ∃ v h', r.run h = .ok v h' ∧ Accounted ({v} + owned) h') := by
    refine ⟨fun hcirc => ?_, fun hcirc => hr.ends ?_⟩
    · obtain ⟨h', herr, -⟩ := hr.endless hcirc
      exact ⟨h', herr⟩
    · rintro ⟨x, hx, hxcirc⟩
      exact hcirc x hx hxcirc
  have hpair {x y : Value} (hac : Accounted (↑[y, x] + owned) h) : Accounted ({y} + ({x} + owned)) h := by
    rw [← add_assoc]
    exact hac
  cases r with
  | convertS x =>
    have hx : x ≠ .unbound := fun heq => hbound (by simp [operands, heq])
    exact hends ((endsUnless_convertS hac hx).congr (by simp [asks]))
  | add x y =>
    have hx : x ≠ .unbound := fun heq => hbound (by simp [operands, heq])
    have hy : y ≠ .unbound := fun heq => hbound (by simp [operands, heq])
    exact hends ((endsUnless_add (hpair hac) hx hy).congr (by simp [asks]))
  | inObject x y =>
    have hx : x ≠ .unbound := fun heq => hbound (by simp [operands, heq])
    have hy : y ≠ .unbound := fun heq => hbound (by simp [operands, heq])
    exact hends ((endsUnless_inObject (hpair hac) hx hy).congr (by simp [asks]))
  | equals x y =>
    have hx : x ≠ .unbound := fun heq => hbound (by simp [operands, heq])
    have hy : y ≠ .unbound := fun heq => hbound (by simp [operands, heq])
    exact hends (endsUnless_equals (hpair hac) hx hy)
  | newObject pairs =>
    obtain ⟨herr, hok⟩ := newObject_cases hbound hac
    refine ⟨?_, fun hall => hok fun p hp => hall p.1 (List.mem_map_of_mem hp)⟩
    rintro ⟨x, hx, hcirc⟩
    obtain ⟨p, hp, rfl⟩ := List.mem_map.1 hx
    exact herr ⟨p, hp, hcirc⟩

end TextRoutine

/-- On every heap that can be built, a value has a text exactly if it does not lead to an array that contains
itself: the text of such a value is not found at any depth. The routines that ask for texts end exactly if they do
not ask for such a text. -/
theorem texts_end_unless_circular (hbuilt : Heap.Built owned h) :
    (∀ v, (∃ s, h.toText v = .ok s) ↔ ¬h.Circular v) ∧
    (∀ v, h.Circular v → ∀ depth, h.textWithin depth v = .error .endless) ∧
    ∀ (r : TextRoutine) (rest : Multiset Value), owned = ↑r.operands + rest →
      ((∃ x ∈ r.asks h, h.Circular x) → ∃ h', r.run h = .error .endless h') ∧
      ((∀ x ∈ r.asks h, ¬h.Circular x) → ∃ v h', r.run h = .ok v h' ∧ Accounted ({v} + rest) h') := by
  obtain ⟨hac, hbound⟩ := hbuilt.accounted
  have hcells : h.Bound := hac.bound
  refine ⟨hcells.exists_toText_iff, fun v hv => hcells.textWithin_circular hv, ?_⟩
  rintro r rest rfl
  exact r.run_cases hac fun hm => hbound (Multiset.mem_add.2 (.inl hm))

/-- An array that was stored in itself. -/
def Heap.ring : Heap where
  cells := #[⟨2, .array #[.ref 0]⟩]

theorem setProperty_ring :
    setProperty (.ref 0) "0" (.ref 0) { cells := #[⟨2, .array #[]⟩] } = .ok () Heap.ring := by
  have hindex : arrayIndex? "0" = some 0 := arrayIndex?_toString (i := 0) (by decide)
  have hset : setBody (.ref 0) (.array #[.ref 0]) { cells := #[⟨2, .array #[]⟩] } = .ok () Heap.ring := rfl
  unfold setProperty
  rw [get_bind]
  simp only [Heap.body?, Heap.cell?, List.getElem?_toArray, List.getElem?_cons_zero, Option.map_some, hindex]
  refine (bind_of_ok hset).trans ?_
  exact release_undefined Heap.ring

theorem built_ring : Heap.Built ({.undefined} + {.ref 0}) Heap.ring := by
  have hnew : Heap.Built ({.ref 0} + 0) { cells := #[⟨1, .array #[]⟩] } :=
    .step (.newArray []) .empty trivial rfl
  have hshared : Heap.Built ({.ref 0} + {.ref 0}) { cells := #[⟨2, .array #[]⟩] } := by
    refine .step (.share (.ref 0)) hnew ⟨_, rfl, by decide⟩ rfl
  refine .step (.set (.ref 0) "0" (.ref 0)) hshared ⟨⟨2, .array #[]⟩, rfl, Nat.succ_ne_zero 1⟩ ?_
  exact bind_of_ok setProperty_ring

/-- The array that was stored in itself has no text, and asking for it does not end. -/
theorem texts_end_unless_circular_ring : Heap.Built ({.undefined} + {.ref 0}) Heap.ring ∧
    (¬∃ s, Heap.ring.toText (.ref 0) = .ok s) ∧ (∃ s, Heap.ring.toText .undefined = .ok s) ∧
    ∃ h', Unary.convertS.run (.ref 0) Heap.ring = .error .endless h' := by
  have hnests : Heap.ring.Nests (.ref 0) (.ref 0) := ⟨#[.ref 0], rfl, by simp⟩
  have hcirc : Heap.ring.Circular (.ref 0) := ⟨.ref 0, .refl, .single hnests⟩
  obtain ⟨htexts, -, hroutines⟩ := texts_end_unless_circular built_ring
  refine ⟨built_ring, fun hs => (htexts _).1 hs hcirc, ⟨"undefined", rfl⟩, ?_⟩
  exact (hroutines (.convertS (.ref 0)) {.undefined} (add_comm _ _)).1 ⟨.ref 0, by simp [TextRoutine.asks], hcirc⟩

end MethodJit
