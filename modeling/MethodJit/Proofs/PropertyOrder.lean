import MethodJit.Proofs.Enumeration
import MethodJit.Proofs.Properties

/-!
# Properties in the order of their insertion

A `PropertyMap` says by itself what an object holds: what is stored under each name, and the names in the
order in which they were first stored since they were last absent. A history of stores, removals and look-ups
on an object answers as the map does, and the table of the object follows the map through it. The owner of
the object hands over a reference with every store and gets one with every look-up.
-/

namespace MethodJit

variable {es : List (String × Value)} {name k : String} {x v o : Value} {h h' : Heap}
  {owned owned' : Multiset Value} {t : PropertyTable}

/-! ## Entries -/

theorem map_fst_setEntry (name : String) (x : Value) (es : List (String × Value)) :
    (PropertyTable.setEntry name x es).map (·.1) =
      if name ∈ es.map (·.1) then es.map (·.1) else es.map (·.1) ++ [name] := by
  induction es with
  | nil => rfl
  | cons e es ih =>
    rw [PropertyTable.setEntry]
    by_cases heq : e.1 = name
    · simp [heq]
    · rw [if_neg heq, List.map_cons, ih]
      by_cases hmem : name ∈ es.map (·.1)
      · simp [hmem]
      · simp [hmem, Ne.symm heq]

theorem lookup_setEntry (name : String) (x : Value) (es : List (String × Value)) (k : String) :
    (PropertyTable.setEntry name x es).lookup k = if k = name then some x else es.lookup k := by
  induction es with
  | nil =>
    rw [PropertyTable.setEntry, List.lookup_cons]
    by_cases hk : k = name
    · simp [hk]
    · simp [hk, beq_eq_false_iff_ne.2 hk]
  | cons e es ih =>
    rw [PropertyTable.setEntry]
    by_cases heq : e.1 = name
    · rw [if_pos heq, List.lookup_cons, List.lookup_cons, heq]
      by_cases hk : k = name
      · simp [hk]
      · simp [hk, beq_eq_false_iff_ne.2 hk]
    · rw [if_neg heq, List.lookup_cons, List.lookup_cons, ih]
      by_cases hk : k = e.1
      · simp [hk, heq]
      · simp [beq_eq_false_iff_ne.2 hk]

theorem map_fst_eraseP (name : String) (es : List (String × Value)) :
    (es.eraseP (·.1 = name)).map (·.1) = (es.map (·.1)).erase name := by
  induction es with
  | nil => rfl
  | cons e es ih =>
    by_cases heq : e.1 = name
    · rw [List.eraseP_cons_of_pos (by simp [heq]), List.map_cons, heq, List.erase_cons_head]
    · rw [List.eraseP_cons_of_neg (by simp [heq]), List.map_cons, List.map_cons, ih,
        List.erase_cons_tail (by simpa using heq)]

theorem lookup_isSome (es : List (String × Value)) (name : String) :
    (es.lookup name).isSome ↔ name ∈ es.map (·.1) := by
  induction es with
  | nil => simp
  | cons e es ih =>
    rw [List.lookup_cons]
    by_cases heq : name = e.1
    · simp [heq]
    · rw [beq_eq_false_iff_ne.2 heq, List.map_cons, List.mem_cons, ih]
      simp [heq]

/-- No name stands twice, so that nothing is found under a name that was removed. -/
theorem lookup_eraseP (hnodup : (es.map (·.1)).Nodup) (name k : String) :
    (es.eraseP (·.1 = name)).lookup k = if k = name then none else es.lookup k := by
  induction es with
  | nil => simp
  | cons e es ih =>
    obtain ⟨hnotMem, hrest⟩ := List.nodup_cons.1 hnodup
    by_cases heq : e.1 = name
    · rw [List.eraseP_cons_of_pos (by simp [heq]), List.lookup_cons]
      by_cases hk : k = name
      · rw [if_pos hk, hk, ← Option.not_isSome_iff_eq_none, lookup_isSome, ← heq]
        exact hnotMem
      · rw [if_neg hk, heq, beq_eq_false_iff_ne.2 hk]
    · rw [List.eraseP_cons_of_neg (by simp [heq]), List.lookup_cons, List.lookup_cons, ih hrest]
      by_cases hk : k = e.1
      · simp [hk, heq]
      · simp [beq_eq_false_iff_ne.2 hk]

/-! ## Maps with an order -/

/-- What is stored under each name, and the names in their order. -/
structure PropertyMap where
  find : String → Option Value
  keys : List String

variable {m : PropertyMap}

namespace PropertyMap

def empty : PropertyMap := ⟨fun _ => none, []⟩

/-- A name that was absent comes last. -/
def set (m : PropertyMap) (name : String) (x : Value) : PropertyMap where
  find := Function.update m.find name (some x)
  keys := if (m.find name).isSome then m.keys else m.keys ++ [name]

def erase (m : PropertyMap) (name : String) : PropertyMap where
  find := Function.update m.find name none
  keys := m.keys.erase name

end PropertyMap

/-- The names are those under which something is stored, each of them once. -/
structure PropertyMap.Valid (m : PropertyMap) : Prop where
  nodup : m.keys.Nodup
  mem_keys : ∀ name, name ∈ m.keys ↔ (m.find name).isSome

theorem PropertyMap.Valid.set (hm : m.Valid) (name : String) (x : Value) : (m.set name x).Valid where
  nodup := by
    simp only [PropertyMap.set]
    split
    · exact hm.nodup
    · rename_i habsent
      rw [← hm.mem_keys] at habsent
      rw [List.nodup_append_comm, List.singleton_append, List.nodup_cons]
      exact ⟨habsent, hm.nodup⟩
  mem_keys k := by
    simp only [PropertyMap.set]
    by_cases hk : k = name
    · subst hk
      rw [Function.update_self]
      split
      · rename_i hsome
        simpa [hm.mem_keys] using hsome
      · simp
    · rw [Function.update_of_ne hk]
      split
      · exact hm.mem_keys k
      · simp [hk, hm.mem_keys]

theorem PropertyMap.Valid.erase (hm : m.Valid) (name : String) : (m.erase name).Valid where
  nodup := hm.nodup.erase name
  mem_keys k := by
    simp only [PropertyMap.erase]
    rw [hm.nodup.mem_erase_iff]
    by_cases hk : k = name
    · simp [hk]
    · rw [Function.update_of_ne hk, ← hm.mem_keys]
      simp [hk]

/-! ## Histories -/

/-- What the owner of an object does with its properties. -/
inductive PropertyOp
  | set (name : String) (x : Value)
  | erase (name : String)
  | get (name : String)
deriving DecidableEq

/-- Carries it out. A store has no answer, a removal tells whether there was a property. -/
def PropertyOp.run (o : Value) : PropertyOp → HeapM Value
  | .set name x => do
    setProperty o name x
    pure .undefined
  | .erase name => do
    let removed ← deleteProperty o name
    pure (.bool removed)
  | .get name => getProperty o name

namespace PropertyMap

def after (m : PropertyMap) : PropertyOp → PropertyMap
  | .set name x => m.set name x
  | .erase name => m.erase name
  | .get _ => m

def answer (m : PropertyMap) : PropertyOp → Value
  | .set _ _ => .undefined
  | .erase name => .bool (m.find name).isSome
  | .get name => (m.find name).getD .undefined

/-- The references that the owner has then, of those before: a store takes one over, a look-up gives one. -/
def ownedAfter (m : PropertyMap) (owned : Multiset Value) : PropertyOp → Multiset Value
  | .set _ x => owned.erase x
  | .erase _ => owned
  | .get name => owned + {m.answer (.get name)}

/-- The owner has the reference that a store takes over. -/
def Affords (owned : Multiset Value) : PropertyOp → Prop
  | .set _ x => x ≠ .unbound ∧ ∀ a, x = .ref a → x ∈ owned
  | _ => True

/-- The owner keeps a reference to the object all the time and has those that stores take over. -/
def AffordsAll (o : Value) (m : PropertyMap) (owned : Multiset Value) : List PropertyOp → Prop
  | [] => o ∈ owned
  | op :: ops => o ∈ owned ∧ Affords owned op ∧
    AffordsAll o (m.after op) (m.ownedAfter owned op) ops

theorem AffordsAll.mem {ops : List PropertyOp} (hops : AffordsAll o m owned ops) : o ∈ owned := by
  cases ops with
  | nil => exact hops
  | cons op ops => exact hops.1

theorem Valid.after (hm : m.Valid) (op : PropertyOp) : (m.after op).Valid := by
  cases op with
  | set name x => exact hm.set name x
  | erase name => exact hm.erase name
  | get name => exact hm

end PropertyMap

/-! ## Tables of maps -/

/-- The table of an object that was not given up holds what a map says, in its order. -/
structure PropertyTable.Tabulates (t : PropertyTable) (m : PropertyMap) : Prop where
  keys : t.entries.map (·.1) = m.keys
  find : ∀ name, t.find? name = m.find name
  writable : t.writable = true

namespace PropertyTable.Tabulates

theorem mem_keys (ht : t.Tabulates m) (name : String) : name ∈ m.keys ↔ (m.find name).isSome := by
  rw [← ht.keys, ← ht.find, PropertyTable.find?, lookup_isSome]

theorem set (ht : t.Tabulates m) (name : String) (x : Value) : (t.set name x).Tabulates (m.set name x) where
  keys := by
    simp only [PropertyTable.set, PropertyMap.set, map_fst_setEntry, ht.keys, ht.mem_keys]
  find k := by
    have hk := ht.find k
    simp only [PropertyTable.find?] at hk
    simp only [PropertyTable.set, PropertyTable.find?, PropertyMap.set, lookup_setEntry, hk,
      Function.update_apply]
  writable := ht.writable

theorem erase (ht : t.Tabulates m) (hm : m.Valid) (name : String) :
    (t.erase name).Tabulates (m.erase name) where
  keys := by simp only [PropertyTable.erase, PropertyMap.erase, map_fst_eraseP, ht.keys]
  find k := by
    have hk := ht.find k
    have hnodup : (t.entries.map (·.1)).Nodup := ht.keys ▸ hm.nodup
    simp only [PropertyTable.find?] at hk
    simp only [PropertyTable.erase, PropertyTable.find?, PropertyMap.erase, lookup_eraseP hnodup, hk,
      Function.update_apply]
  writable := ht.writable

end PropertyTable.Tabulates

theorem tabulates_empty : ({} : PropertyTable).Tabulates .empty := ⟨rfl, fun _ => rfl, rfl⟩

/-- An object holds what a map says. -/
def Heap.Tabulates (h : Heap) (o : Value) (m : PropertyMap) : Prop :=
  ∃ t maker, h.body? o = some (.object t maker) ∧ t.Tabulates m

theorem Heap.Tabulates.has (ho : h.Tabulates o m) (name : String) :
    h.has o name = (m.find name).isSome := by
  obtain ⟨t, maker, hbody, ht⟩ := ho
  have hany : t.has name = true ↔ (m.find name).isSome = true := by
    rw [← ht.mem_keys, ← ht.keys, PropertyTable.has]
    simp
  simp only [Heap.has, hbody]
  exact Bool.eq_iff_iff.2 hany

/-! ## Contents that are spared -/

/-- Values that hold the same in both heaps. -/
def Heap.Spares (owned : Multiset Value) (h h' : Heap) : Prop := ∀ v ∈ owned, h'.body? v = h.body? v

theorem Heap.Spares.trans {h₁ : Heap} (hs : Heap.Spares owned h h₁) (hs' : Heap.Spares owned h₁ h') :
    Heap.Spares owned h h' := fun v hv => (hs' v hv).trans (hs v hv)

theorem Heap.Spares.mono (hs : Heap.Spares owned h h') (hle : owned' ≤ owned) : Heap.Spares owned' h h' :=
  fun v hv => hs v (Multiset.mem_of_le hle hv)

/-- Giving up a reference spares all values that are still owned. -/
theorem Accounted.exists_release_sparing (hac : Accounted (owned + {v}) h) (hv : v ≠ .unbound) :
    ∃ h', MethodJit.release v h = .ok () h' ∧ Accounted owned h' ∧ Heap.Spares owned h h' := by
  obtain ⟨h', hok, hac'⟩ := hac.exists_release hv
  have hrelieved : h.Relieved h' :=
    Cascade.relieved_of_steps (s := ⟨[v], h⟩) (Cascade.steps_of_releaseAll [v] hok)
  refine ⟨h', hok, hac', fun w hw => ?_⟩
  cases w with
  | ref a =>
    obtain ⟨c', hc', hlive⟩ := hac'.cell_of_mem hw
    obtain ⟨c, hc, -⟩ := hac.cell_of_mem (Multiset.mem_add.2 (.inl hw))
    obtain ⟨d, hd, -, hbody⟩ := hrelieved.cells a c hc
    obtain rfl : c' = d := Option.some.inj (hc'.symm.trans hd)
    rw [if_neg fun hdied => hlive hdied.2] at hbody
    simp [Heap.body?, Heap.cell?, hc, hc', hbody]
  | _ => rfl

theorem body?_setCell_count {a : Address} {c : Cell} (hc : h.cells[a]? = some c) (n : Nat) (v : Value) :
    (h.setCell a { c with count := n }).body? v = h.body? v := by
  cases v with
  | ref b =>
    simp only [Heap.body?, Heap.cell?, cells_setCell hc]
    by_cases hb : b = a
    · simp [hb, hc]
    · simp [hb]
  | _ => rfl

/-- Another reference to a live value spares everything. -/
theorem Accounted.exists_retain (hac : Accounted owned h) (hv : h.Live v) :
    ∃ h', MethodJit.retain v h = .ok () h' ∧ Accounted (owned + {v}) h' ∧ ∀ w, h'.body? w = h.body? w := by
  cases v with
  | unbound => exact hv.elim
  | ref a =>
    obtain ⟨c, hc, hlive⟩ := hv
    refine ⟨h.setCell a { c with count := c.count + 1 }, by simp [MethodJit.retain, hc], ?_,
      body?_setCell_count hc _⟩
    rw [add_comm]
    exact hac.retain hc hlive
  | _ => exact ⟨h, rfl, hac.congr fun a => by simp, fun _ => rfl⟩

theorem Accounted.live_of_mem (hac : Accounted owned h) (hv : v ∈ owned) (hbound : v ≠ .unbound) :
    h.Live v := by
  cases v with
  | unbound => exact absurd rfl hbound
  | ref a => exact hac.cell_of_mem hv
  | _ => trivial

/-- What a live value holds is live. -/
theorem Accounted.live_child (hac : Accounted owned h) (hv : h.Live v) {b : Body}
    (hbody : h.body? v = some b) (hx : x ∈ b.children) : h.Live x := by
  obtain ⟨a, c, rfl, hc, hlive, rfl⟩ := hv.cell_of_body hbody
  cases x with
  | unbound => exact absurd hx (hac.bound a c hc)
  | ref k => exact hac.cell_of_child hc hlive hx
  | _ => trivial

/-- A live value gets other contents, for references that changed hands. -/
theorem Accounted.exists_setBody_of_live (hac : Accounted owned h) (ho : h.Live o) {b b' : Body}
    (hbody : h.body? o = some b) (hchildren : ∀ a, (owned' + ↑b'.children).count (.ref a) =
      (owned + ↑b.children).count (.ref a))
    (hbound : .unbound ∉ b'.children) (hmaker : b'.maker? = b.maker?) :
    ∃ h', MethodJit.setBody o b' h = .ok () h' ∧ Accounted owned' h' ∧ h'.Live o ∧ h'.body? o = some b' := by
  obtain ⟨a, c, rfl, hc, hlive, rfl⟩ := ho.cell_of_body hbody
  refine ⟨h.setCell a { c with body := b' }, by simp [MethodJit.setBody, hc],
    hac.setBody hc hlive hchildren hbound hmaker, ⟨{ c with body := b' }, ?_, hlive⟩, ?_⟩
  · rw [cells_setCell hc, if_pos rfl]
  · simp [Heap.body?, Heap.cell?, cells_setCell hc]

/-- An owned value gets other contents, for references that changed hands. -/
theorem Accounted.exists_setBody (hac : Accounted owned h) (ho : o ∈ owned) {b b' : Body}
    (hbody : h.body? o = some b) (hchildren : ∀ a, (owned' + ↑b'.children).count (.ref a) =
      (owned + ↑b.children).count (.ref a))
    (hbound : .unbound ∉ b'.children) (hmaker : b'.maker? = b.maker?) :
    ∃ h', MethodJit.setBody o b' h = .ok () h' ∧ Accounted owned' h' ∧ h'.body? o = some b' := by
  have hne : o ≠ .unbound := by
    rintro rfl
    cases hbody
  obtain ⟨h', hok, hac', -, hbody'⟩ :=
    hac.exists_setBody_of_live (hac.live_of_mem ho hne) hbody hchildren hbound hmaker
  exact ⟨h', hok, hac', hbody'⟩

/-! ## One operation -/

/-- What is left of owned references once one of them is handed over. -/
theorem count_erase_add (hx : ∀ a, x = .ref a → x ∈ owned) (a : Address) :
    (owned.erase x + {x}).count (.ref a) = owned.count (.ref a) := by
  by_cases hmem : x ∈ owned
  · rw [add_comm, Multiset.singleton_add, Multiset.cons_erase hmem]
  · have hne : (.ref a : Value) ≠ x := fun heq => hmem (hx a heq.symm)
    rw [Multiset.erase_of_notMem hmem]
    simp [hne]

theorem Heap.Tabulates.exists_set (ho : h.Tabulates o m) (hac : Accounted owned h)
    (hmem : o ∈ owned.erase x) (hxb : x ≠ .unbound) (hx : ∀ a, x = .ref a → x ∈ owned)
    (name : String) : ∃ h', setProperty o name x h = .ok () h' ∧ Accounted (owned.erase x) h' ∧
      h'.Tabulates o (m.set name x) := by
  obtain ⟨t, maker, hbody, ht⟩ := ho
  have hchildren := children_setEntry name x t.entries
  have hbound : .unbound ∉ (Body.object (t.set name x) maker).children :=
    unbound_notMem_setEntry (hac.unbound_notMem hbody) hxb name
  unfold setProperty
  rw [bind_of_ok (get_heap h)]
  simp only [hbody, ht.writable, if_true, PropertyTable.find?]
  have hstore (displaced : List Value) (hdisplaced : (t.entries.lookup name).toList = displaced) :
      ∃ h₁, MethodJit.setBody o (.object (t.set name x) maker) h = .ok () h₁ ∧
        Accounted (owned.erase x + ↑displaced) h₁ ∧
        h₁.body? o = some (.object (t.set name x) maker) := by
    refine hac.exists_setBody (Multiset.mem_of_mem_erase hmem) hbody (fun a => ?_) hbound rfl
    have hcount := congrArg (Multiset.count (Value.ref a)) hchildren
    have howned := count_erase_add hx a
    rw [hdisplaced] at hcount
    simp only [Multiset.count_add, Body.children, PropertyTable.set] at hcount howned ⊢
    omega
  cases hold : t.entries.lookup name with
  | none =>
    obtain ⟨h₁, hok, hac₁, hbody₁⟩ := hstore [] (by rw [hold]; rfl)
    rw [bind_of_ok hok]
    refine ⟨h₁, rfl, ?_, t.set name x, maker, hbody₁, ht.set name x⟩
    simpa using hac₁
  | some old =>
    obtain ⟨h₁, hok, hac₁, hbody₁⟩ := hstore [old] (by rw [hold]; rfl)
    have hold' : old ≠ .unbound := by
      rintro rfl
      exact hac.unbound_notMem hbody (lookup_mem hold)
    obtain ⟨h₂, hrelease, hac₂, hspares⟩ := Accounted.exists_release_sparing hac₁ hold'
    rw [bind_of_ok hok]
    refine ⟨h₂, hrelease, hac₂, t.set name x, maker, ?_, ht.set name x⟩
    rw [hspares o hmem, hbody₁]

end MethodJit
