import MethodJit.Heap.Call
import MethodJit.Proofs.ReadingHeaps

/-!
# Properties in linked heaps

Reading and storing properties keeps two heaps linked. What an object or an array holds afterwards is what
it held before and the new value, without the displaced one.
-/

namespace MethodJit

variable {base : Nat} {G : Graph} {ψ ψ' : Naming} {P Q : Multiset Link} {h h' : Heap} {K : Origin}
  {v w x y : Value} {es es' : List (String × Value)} {name : String}

/-! ## Entries -/

/-- The same names with values that stand for the same. -/
abbrev Entries (ψ ψ' : Naming) (es es' : List (String × Value)) : Prop :=
  List.Forall₂ (fun e e' => e.1 = e'.1 ∧ ψ.of e.2 = ψ'.of e'.2) es es'

theorem lookup_mem (hx : es.lookup name = some x) : x ∈ es.map (·.2) := by
  induction es with
  | nil => cases hx
  | cons e es ih =>
    rw [List.lookup_cons] at hx
    split at hx
    · cases hx
      exact List.mem_cons_self
    · exact List.mem_cons_of_mem _ (ih hx)

theorem Entries.lookup (hes : Entries ψ ψ' es es') (name : String) :
    (es.lookup name = none ∧ es'.lookup name = none) ∨
      ∃ x y, es.lookup name = some x ∧ es'.lookup name = some y ∧ ψ.of x = ψ'.of y := by
  induction hes with
  | nil => exact .inl ⟨rfl, rfl⟩
  | cons he _ ih =>
    rw [List.lookup_cons, List.lookup_cons, he.1]
    split
    · exact .inr ⟨_, _, rfl, rfl, he.2⟩
    · exact ih

theorem Entries.setEntry (hes : Entries ψ ψ' es es') (hx : ψ.of x = ψ'.of y) (name : String) :
    Entries ψ ψ' (PropertyTable.setEntry name x es) (PropertyTable.setEntry name y es') := by
  induction hes with
  | nil => exact .cons ⟨rfl, hx⟩ .nil
  | cons he hes ih =>
    simp only [PropertyTable.setEntry, he.1]
    split
    · exact .cons ⟨rfl, hx⟩ hes
    · exact .cons he ih

theorem Entries.eraseP (hes : Entries ψ ψ' es es') (name : String) :
    Entries ψ ψ' (es.eraseP (·.1 = name)) (es'.eraseP (·.1 = name)) := by
  induction hes with
  | nil => exact .nil
  | cons he hes ih =>
    rename_i e e' es es'
    by_cases heq : e'.1 = name
    · rw [List.eraseP_cons_of_pos (by simp [he.1, heq]), List.eraseP_cons_of_pos (by simp [heq])]
      exact hes
    · rw [List.eraseP_cons_of_neg (by simp [he.1, heq]), List.eraseP_cons_of_neg (by simp [heq])]
      exact .cons he ih

theorem coe_cons (v : Value) (vs : List Value) : (↑(v :: vs) : Multiset Value) = {v} + ↑vs := rfl

/-- What is held after storing, and what is displaced. -/
theorem children_setEntry (name : String) (x : Value) (es : List (String × Value)) :
    (↑((PropertyTable.setEntry name x es).map (·.2)) + ↑(es.lookup name).toList : Multiset Value) =
      {x} + ↑(es.map (·.2)) := by
  induction es with
  | nil => rfl
  | cons e es ih =>
    rw [List.lookup_cons, PropertyTable.setEntry]
    by_cases heq : e.1 = name
    · simp only [heq, if_true, beq_self_eq_true, List.map_cons, coe_cons]
      simp only [Option.toList_some, coe_cons, Multiset.coe_nil]
      abel
    · have hne : (name == e.1) = false := beq_eq_false_iff_ne.2 (Ne.symm heq)
      simp only [heq, if_false, hne, List.map_cons, coe_cons]
      rw [add_assoc, ih]
      abel

theorem children_eraseP (hx : es.lookup name = some x) :
    ({x} + ↑((es.eraseP (·.1 = name)).map (·.2)) : Multiset Value) = ↑(es.map (·.2)) := by
  induction es with
  | nil => cases hx
  | cons e es ih =>
    rw [List.lookup_cons] at hx
    by_cases heq : e.1 = name
    · simp only [heq, beq_self_eq_true, Option.some.injEq] at hx
      rw [List.eraseP_cons_of_pos (by simp [heq]), List.map_cons, coe_cons, hx]
    · rw [beq_eq_false_iff_ne.2 (Ne.symm heq)] at hx
      rw [List.eraseP_cons_of_neg (by simp [heq]), List.map_cons, List.map_cons, coe_cons, coe_cons,
        ← ih hx]
      abel

/-! ## Cells -/

theorem Heap.Live.cell_of_body (hv : h.Live v) {b : Body} (hb : h.body? v = some b) :
    ∃ a c, v = .ref a ∧ h.cells[a]? = some c ∧ c.count ≠ 0 ∧ c.body = b := by
  cases v with
  | ref a =>
    obtain ⟨c, hc, hlive⟩ := hv
    refine ⟨a, c, rfl, hc, hlive, ?_⟩
    simpa [Heap.body?, Heap.cell?, hc] using hb
  | _ => cases hb

/-- Values with the same contents that are no numbers or texts have the same node. -/
theorem Bond.exists_node (hb : Bond base G ψ ψ' P h h') {a a' : Address}
    (hc : Counterpart ψ ψ' h h' (.ref a) (.ref a')) {b : Body} (hbody : h.body? (.ref a) = some b)
    (hp : b.isPrimitive = false) : ∃ n, ψ a = .node n ∧ ψ' a' = .node n := by
  have hsame : ψ a = ψ' a' := hc.same
  obtain ⟨c, hcell, -⟩ := hc.left
  have hnamed := hb.left.named a c hcell
  have hcb : c.body = b := by simpa [Heap.body?, Heap.cell?, hcell] using hbody
  cases hψ : ψ a with
  | node n => exact ⟨n, rfl, hsame ▸ hψ⟩
  | boxed b' =>
    rw [hψ] at hnamed
    rw [← hcb, Body.isPrimitive_of_isInt hnamed.2] at hp
    cases hp
  | _ =>
    rw [hψ] at hnamed
    exact hnamed.elim

/-- Two objects or arrays that stand for the same get another content. -/
theorem Bond.leads_setBody (hb : Bond K.size G ψ ψ' (Q + P) h h')
    (hc : Counterpart ψ ψ' h h' v w) {b b' nb nb' : Body} (hbody : h.body? v = some b)
    (hbody' : h'.body? w = some b') (hp : b.isPrimitive = false) (hs : nb.shape ψ = nb'.shape ψ')
    (Q' : Multiset Link) (hQ : ∀ l ∈ Q', l.Agrees ψ ψ')
    (hown : ∀ k, (lefts Q' + ↑nb.children).count (.ref k) = (lefts Q + ↑b.children).count (.ref k))
    (hown' : ∀ k, (rights Q' + ↑nb'.children).count (.ref k) =
      (rights Q + ↑b'.children).count (.ref k))
    (hbound : .unbound ∉ nb.children) (hbound' : .unbound ∉ nb'.children)
    (hmaker : nb.maker? = b.maker?) (hmaker' : nb'.maker? = b'.maker?) :
    Leads K P (fun _ _ R => R = Q') h h' (MethodJit.setBody v nb h) (MethodJit.setBody w nb' h') := by
  obtain ⟨a, c, rfl, hcell, hlive, rfl⟩ := hc.left.cell_of_body hbody
  obtain ⟨a', c', rfl, hcell', hlive', rfl⟩ := hc.right.cell_of_body hbody'
  obtain ⟨n, hn, hn'⟩ := hb.exists_node hc hbody hp
  have hP (k : Link) (hk : k ∈ Q' + P) : k.Agrees ψ ψ' := by
    rcases Multiset.mem_add.1 hk with hk | hk
    · exact hQ k hk
    · exact hb.agrees k (Multiset.mem_add.2 (.inr hk))
  refine .inl ⟨(), (), h.setCell a { c with body := nb }, h'.setCell a' { c' with body := nb' },
    by simp [MethodJit.setBody, hcell], by simp [MethodJit.setBody, hcell'], rfl, rfl, Q', rfl, _, ψ, ψ',
    hb.setBody hcell hlive hn hcell' hlive' hn' hs hP ?_ ?_ hbound hbound' hmaker hmaker'⟩
  · intro k
    have := hown k
    simp only [lefts_add, Multiset.count_add] at this ⊢
    omega
  · intro k
    have := hown' k
    simp only [rights_add, Multiset.count_add] at this ⊢
    omega

/-- The ways in which two values that stand for the same have contents. -/
theorem Bond.cases_body (hb : Bond base G ψ ψ' P h h') (hc : Counterpart ψ ψ' h h' v w) :
    (h.body? v = none ∧ h'.body? w = none) ∨
    (∃ b, h.body? v = some b ∧ h'.body? w = some b ∧ b.shape ψ = .plain b) ∨
    (∃ es es' wr k k', h.body? v = some (.object ⟨es, wr⟩ k) ∧ h'.body? w = some (.object ⟨es', wr⟩ k') ∧
      Entries ψ ψ' es es' ∧ k.map ψ = k'.map ψ') ∨
    ∃ xs xs', h.body? v = some (.array xs) ∧ h'.body? w = some (.array xs') ∧
      List.Forall₂ (fun x x' => ψ.of x = ψ'.of x') xs.toList xs'.toList := by
  have hal := hb.alike hc
  generalize h.body? v = o, h'.body? w = o' at hal ⊢
  cases hal with
  | none => exact .inl ⟨rfl, rfl⟩
  | plain b _ hs => exact .inr (.inl ⟨b, rfl, rfl, hs⟩)
  | object es es' wr k k' hes hk => exact .inr (.inr (.inl ⟨es, es', wr, k, k', rfl, rfl, hes, hk⟩))
  | array xs xs' hxs => exact .inr (.inr (.inr ⟨xs, xs', rfl, rfl, hxs⟩))

theorem getElem?_counterpart {xs xs' : List Value}
    (hxs : List.Forall₂ (Counterpart ψ ψ' h h') xs xs') (i : Nat) :
    (xs[i]? = none ∧ xs'[i]? = none) ∨
      ∃ x y, xs[i]? = some x ∧ xs'[i]? = some y ∧ Counterpart ψ ψ' h h' x y := by
  induction hxs generalizing i with
  | nil => exact .inl ⟨rfl, rfl⟩
  | cons hx _ ih =>
    cases i with
    | zero => exact .inr ⟨_, _, rfl, rfl, hx⟩
    | succ i => simpa using ih i

/-! ## Reading properties -/

theorem get_heap (h : Heap) : (get : HeapM Heap) h = .ok h h := rfl

theorem Bond.leads_undefined (hb : Bond K.size G ψ ψ' P h h') : Leads K P Gives h h'
    ((pure .undefined : HeapM Value) h) ((pure .undefined : HeapM Value) h') :=
  hb.leads_immortal nofun nofun

theorem Bond.leads_getProperty (hb : Bond K.size G ψ ψ' P h h') (hc : Counterpart ψ ψ' h h' v w)
    (name : String) : Leads K P Gives h h' (getProperty v name h) (getProperty w name h') := by
  unfold getProperty
  rw [bind_of_ok (get_heap h), bind_of_ok (get_heap h')]
  rcases hb.cases_body hc with ⟨hv, hw⟩ | ⟨b, hv, hw, hs⟩ | ⟨es, es', wr, k, k', hv, hw, hes, hk⟩ |
    ⟨xs, xs', hv, hw, hxs⟩
  · simp only [hv, hw]
    exact hb.leads_undefined
  · rw [hv, hw]
    cases b with
    | object table k => cases hs
    | array xs => cases hs
    | string s =>
      simp only
      split
      · exact hb.leads_alloc rfl
      · exact hb.leads_undefined
    | function fname c =>
      simp only
      split
      · exact hb.leads_alloc rfl
      · exact hb.leads_undefined
    | _ => exact hb.leads_undefined
  · simp only [hv, hw, PropertyTable.find?]
    obtain ⟨hx, hy⟩ | ⟨x, y, hx, hy, hsame⟩ := hes.lookup name
    · simp only [hx, hy]
      exact hb.leads_undefined
    · have hxy : Counterpart ψ ψ' h h' x y :=
        hb.child hc.left hc.right hv hw (lookup_mem hx) (lookup_mem hy) hsame
      simp only [hx, hy, hxy.left.isBound, hxy.right.isBound, if_true]
      exact hb.leads_shared hxy
  · simp only [hv, hw]
    have hsize : xs.size = xs'.size := hxs.length_eq
    rw [hsize]
    split
    · exact hb.leads_alloc rfl
    · cases arrayIndex? name with
      | some i =>
        have helem := getElem?_counterpart (hb.elems hc.left hc.right hv hw hxs) i
        simp only [Array.getElem?_toList] at helem
        obtain ⟨hx, hy⟩ | ⟨x, y, hx, hy, hxy⟩ := helem
        · simp only [hx, hy]
          exact hb.leads_undefined
        · simp only [hx, hy]
          exact hb.leads_shared hxy
      | none => exact hb.leads_undefined

theorem twin_getProperty {borrow : List Link} {t : Prop} (hl : Link.pair v w ∈ borrow) (name : String) :
    Twin (heapBridge K) borrow 0 t (getProperty v name) (getProperty w name) Gives := by
  refine .of_bond fun G ψ ψ' P h h' hb hborrow => ?_
  rw [zero_add] at hb
  exact hb.leads_getProperty (hb.counterpart (hborrow _ hl)) name

theorem twin_nameAt {borrow : List Link} {t : Prop} (hl : Link.pair v w ∈ borrow) (i : Int) :
    Twin (heapBridge K) borrow 0 t (nameAt v i) (nameAt w i) Gives := by
  refine .of_bond fun G ψ ψ' P h h' hb hborrow => ?_
  rw [zero_add] at hb
  have hc : Counterpart ψ ψ' h h' v w := hb.counterpart (hborrow _ hl)
  unfold nameAt
  rw [bind_of_ok (get_heap h), bind_of_ok (get_heap h'), hb.enumSize_eq hc]
  split
  · exact hb.leads_undefined
  · rcases hb.cases_body hc with ⟨hv, hw⟩ | ⟨b, hv, hw, hs⟩ | ⟨es, es', wr, k, k', hv, hw, hes, hk⟩ |
      ⟨xs, xs', hv, hw, hxs⟩
    · rw [hv, hw]
      exact hb.leads_alloc rfl
    · rw [hv, hw]
      cases b with
      | object table k => cases hs
      | _ => exact hb.leads_alloc rfl
    · simp only [hv, hw]
      have hlen := hes.length_eq
      by_cases hi : i.toNat - 1 < es.length
      · rw [List.getElem?_eq_getElem hi, List.getElem?_eq_getElem (hlen ▸ hi)]
        have hname := (List.forall₂_iff_get.1 hes).2 (i.toNat - 1) hi (hlen ▸ hi)
        simp only [List.get_eq_getElem] at hname
        simp only [hname.1]
        exact hb.leads_alloc rfl
      · rw [List.getElem?_eq_none (by omega), List.getElem?_eq_none (by omega)]
        exact hb.leads_undefined
    · rw [hv, hw]
      exact hb.leads_alloc rfl

theorem twin_valueAt {borrow : List Link} {t : Prop} (hl : Link.pair v w ∈ borrow) (i : Int) :
    Twin (heapBridge K) borrow 0 t (valueAt v i) (valueAt w i) Gives := by
  refine .of_bond fun G ψ ψ' P h h' hb hborrow => ?_
  rw [zero_add] at hb
  have hc : Counterpart ψ ψ' h h' v w := hb.counterpart (hborrow _ hl)
  unfold valueAt
  rw [bind_of_ok (get_heap h), bind_of_ok (get_heap h'), hb.enumSize_eq hc]
  split
  · exact hb.leads_undefined
  · rcases hb.cases_body hc with ⟨hv, hw⟩ | ⟨b, hv, hw, hs⟩ | ⟨es, es', wr, k, k', hv, hw, hes, hk⟩ |
      ⟨xs, xs', hv, hw, hxs⟩
    · rw [hv, hw]
      exact hb.leads_undefined
    · rw [hv, hw]
      cases b with
      | object table k => cases hs
      | array xs => cases hs
      | _ => exact hb.leads_undefined
    · simp only [hv, hw]
      have hlen := hes.length_eq
      by_cases hi : i.toNat - 1 < es.length
      · rw [List.getElem?_eq_getElem hi, List.getElem?_eq_getElem (hlen ▸ hi)]
        have hname := (List.forall₂_iff_get.1 hes).2 (i.toNat - 1) hi (hlen ▸ hi)
        simp only [List.get_eq_getElem] at hname
        simp only [hname.1]
        exact hb.leads_getProperty hc _
      · rw [List.getElem?_eq_none (by omega), List.getElem?_eq_none (by omega)]
        exact hb.leads_undefined
    · simp only [hv, hw]
      have helem := getElem?_counterpart (hb.elems hc.left hc.right hv hw hxs) (i.toNat - 1)
      simp only [Array.getElem?_toList] at helem
      obtain ⟨hx, hy⟩ | ⟨x, y, hx, hy, hxy⟩ := helem
      · rw [hx, hy]
        exact hb.leads_undefined
      · rw [hx, hy]
        exact hb.leads_shared hxy

/-! ## Storing properties -/

theorem Bond.unbound_notMem (hb : Bond base G ψ ψ' P h h') (hv : h.Live v) {b : Body}
    (hbody : h.body? v = some b) : .unbound ∉ b.children := by
  obtain ⟨a, c, rfl, hc, -, rfl⟩ := hv.cell_of_body hbody
  exact hb.left.accounted.bound a c hc

theorem Bond.unbound_notMem_right (hb : Bond base G ψ ψ' P h h') (hw : h'.Live w) {b : Body}
    (hbody : h'.body? w = some b) : .unbound ∉ b.children := by
  obtain ⟨a, c, rfl, hc, -, rfl⟩ := hw.cell_of_body hbody
  exact hb.right.accounted.bound a c hc

theorem unbound_notMem_setEntry (hes : .unbound ∉ es.map (·.2)) (hx : x ≠ .unbound) (name : String) :
    .unbound ∉ (PropertyTable.setEntry name x es).map (·.2) := by
  intro hm
  have hall : .unbound ∈ ({x} + ↑(es.map (·.2)) : Multiset Value) := by
    rw [← children_setEntry name x es]
    exact Multiset.mem_add.2 (.inl hm)
  rcases Multiset.mem_add.1 hall with hm | hm
  · exact hx (Multiset.mem_singleton.1 hm).symm
  · exact hes hm

theorem toList_storeElem (xs : Array Value) (i : Nat) (x : Value) : (storeElem xs i x).toList =
    (xs.toList ++ List.replicate (i + 1 - xs.size) Value.undefined).set i x := by
  simp [storeElem]

theorem count_storeElem (xs : Array Value) (i : Nat) (x : Value) (k : Address) :
    ({(xs[i]?).getD .undefined} + ↑(storeElem xs i x).toList : Multiset Value).count (.ref k) =
      ({x} + ↑xs.toList : Multiset Value).count (.ref k) := by
  rw [toList_storeElem]
  generalize hl : xs.toList ++ List.replicate (i + 1 - xs.size) Value.undefined = l
  have hcount : l.count (.ref k) = xs.toList.count (.ref k) := by
    rw [← hl, List.count_append, List.count_replicate]
    simp
  have hi : i < l.length := by
    rw [← hl]
    simp only [List.length_append, Array.length_toList, List.length_replicate]
    omega
  have hold : l[i] = (xs[i]?).getD .undefined := by
    subst hl
    by_cases hlt : i < xs.size
    · rw [List.getElem_append_left (by simpa using hlt), Array.getElem?_eq_getElem hlt]
      simp
    · rw [List.getElem_append_right (by simpa using hlt), Array.getElem?_eq_none (by omega)]
      simp
  have hset := (List.set_perm_cons_eraseIdx hi x).count_eq (.ref k)
  have hget := (List.getElem_cons_eraseIdx_perm hi).count_eq (.ref k)
  rw [List.count_cons] at hset hget
  simp only [Multiset.count_add, Multiset.coe_count, Multiset.count_singleton]
  have hbeq (u : Value) : (if u == .ref k then 1 else 0) = if .ref k = u then 1 else 0 := by
    by_cases hu : u = .ref k
    · simp [hu]
    · rw [if_neg (by simpa using hu), if_neg (Ne.symm hu)]
  rw [← hold, hset, ← hcount, ← hget, hbeq, hbeq]
  omega

theorem unbound_notMem_storeElem {xs : Array Value} (hxs : .unbound ∉ xs.toList) (hx : x ≠ .unbound)
    (i : Nat) : .unbound ∉ (storeElem xs i x).toList := by
  rw [toList_storeElem]
  intro hm
  rcases List.mem_or_eq_of_mem_set hm with hm | hm
  · rcases List.mem_append.1 hm with hm | hm
    · exact hxs hm
    · exact nomatch (List.mem_replicate.1 hm).2
  · exact hx hm.symm

theorem map_storeElem {xs xs' : Array Value} (hxs : xs.toList.map ψ.of = xs'.toList.map ψ'.of)
    (hx : ψ.of x = ψ'.of y) (i : Nat) :
    (storeElem xs i x).toList.map ψ.of = (storeElem xs' i y).toList.map ψ'.of := by
  have hsize : xs.size = xs'.size := by simpa using congrArg List.length hxs
  simp only [toList_storeElem, List.map_set, List.map_append, hxs, List.map_replicate, hx, hsize]
  rfl

theorem map_eq_of_forall₂ {α β γ : Type} {f : α → γ} {g : β → γ} {l : List α} {l' : List β}
    (hl : List.Forall₂ (fun x y => f x = g y) l l') : l.map f = l'.map g := by
  induction hl with
  | nil => rfl
  | cons hx _ ih => rw [List.map_cons, List.map_cons, hx, ih]

theorem shape_object (hes : Entries ψ ψ' es es') {k k' : Option Address} (hk : k.map ψ = k'.map ψ')
    (wr : Bool) : (Body.object ⟨es, wr⟩ k).shape ψ = (Body.object ⟨es', wr⟩ k').shape ψ' := by
  have hentries : es.map (fun e => (e.1, ψ.of e.2)) = es'.map fun e => (e.1, ψ'.of e.2) :=
    map_eq_of_forall₂ (hes.imp fun _ _ he => Prod.ext he.1 he.2)
  simp only [Body.shape, hentries, hk]

theorem Bond.leads_setProperty (hb : Bond K.size G ψ ψ' ({Link.pair x y} + P) h h')
    (hc : Counterpart ψ ψ' h h' v w) (name : String) :
    Leads K P Done h h' (setProperty v name x h) (setProperty w name y h') := by
  have hxy : Counterpart ψ ψ' h h' x y := hb.counterpart (by simp)
  unfold setProperty
  rw [bind_of_ok (get_heap h), bind_of_ok (get_heap h')]
  rcases hb.cases_body hc with ⟨hv, hw⟩ | ⟨b, hv, hw, hs⟩ | ⟨es, es', wr, k, k', hv, hw, hes, hk⟩ |
    ⟨xs, xs', hv, hw, hxs⟩
  · rw [hv, hw]
    exact hb.leads_release
  · rw [hv, hw]
    cases b with
    | object table k => cases hs
    | array xs => cases hs
    | _ => exact hb.leads_release
  · simp only [hv, hw, PropertyTable.find?, PropertyTable.set]
    cases wr with
    | false => exact .inr ⟨h, rfl, hb.owns_left⟩
    | true =>
      have hstored := hes.setEntry hxy.same name
      have hchildren := children_setEntry name x es
      have hchildren' := children_setEntry name y es'
      have hbound := unbound_notMem_setEntry (hb.unbound_notMem hc.left hv) hxy.left.ne_unbound name
      have hbound' :=
        unbound_notMem_setEntry (hb.unbound_notMem_right hc.right hw) hxy.right.ne_unbound name
      simp only [if_true]
      obtain ⟨hold, hold'⟩ | ⟨o, o', hold, hold', hsame⟩ := hes.lookup name
      · simp only [hold, hold', Option.toList_none, Multiset.coe_nil, add_zero] at hchildren hchildren' ⊢
        refine (hb.leads_setBody hc hv hw rfl (shape_object hstored hk true) 0 (by simp)
          (fun a => ?_) (fun a => ?_) hbound hbound' rfl rfl).bind fun _ _ R h₁ h₁' G ψ ψ' hR hb => ?_
        · simp only [Body.children, hchildren, lefts_zero, zero_add, lefts_singleton, lefts_pair]
        · simp only [Body.children, hchildren', rights_zero, zero_add, rights_singleton, rights_pair]
        · subst hR
          exact .inl ⟨(), (), h₁, h₁', rfl, rfl, rfl, rfl, 0, rfl, G, ψ, ψ', hb⟩
      · have hoo : Counterpart ψ ψ' h h' o o' :=
          hb.child hc.left hc.right hv hw (lookup_mem hold) (lookup_mem hold') hsame
        simp only [hold, hold', Option.toList_some] at hchildren hchildren' ⊢
        refine (hb.leads_setBody hc hv hw rfl (shape_object hstored hk true) {Link.pair o o'}
          (by simpa using hb.agrees_pair hoo) (fun a => ?_) (fun a => ?_) hbound hbound' rfl rfl).bind
          fun _ _ R h₁ h₁' G ψ ψ' hR hb => ?_
        · simp only [Body.children, lefts_singleton, lefts_pair]
          rw [← hchildren, add_comm]
          rfl
        · simp only [Body.children, rights_singleton, rights_pair]
          rw [← hchildren', add_comm]
          rfl
        · subst hR
          exact hb.leads_release
  · simp only [hv, hw]
    cases arrayIndex? name with
    | none => exact hb.leads_release
    | some i =>
      have hold : Counterpart ψ ψ' h h' ((xs[i]?).getD .undefined) ((xs'[i]?).getD .undefined) := by
        have helem := getElem?_counterpart (hb.elems hc.left hc.right hv hw hxs) i
        simp only [Array.getElem?_toList] at helem
        obtain ⟨ho, ho'⟩ | ⟨o, o', ho, ho', hoo⟩ := helem
        · rw [ho, ho']
          exact ⟨trivial, trivial, rfl⟩
        · rw [ho, ho']
          exact hoo
      have hs : (Body.array (storeElem xs i x)).shape ψ = (Body.array (storeElem xs' i y)).shape ψ' :=
        congrArg Shape.array (map_storeElem (map_eq_of_forall₂ hxs) hxy.same i)
      refine (hb.leads_setBody hc hv hw rfl hs {Link.pair _ _}
        (by simpa using hb.agrees_pair hold) (fun a => ?_) (fun a => ?_)
        (unbound_notMem_storeElem (hb.unbound_notMem hc.left hv) hxy.left.ne_unbound i)
        (unbound_notMem_storeElem (hb.unbound_notMem_right hc.right hw) hxy.right.ne_unbound i)
        rfl rfl).bind fun _ _ R h₁ h₁' G ψ ψ' hR hb => ?_
      · rw [lefts_singleton, lefts_pair, lefts_singleton, lefts_pair]
        exact count_storeElem xs i x a
      · rw [rights_singleton, rights_pair, rights_singleton, rights_pair]
        exact count_storeElem xs' i y a
      · subst hR
        exact hb.leads_release

theorem twin_setProperty {borrow : List Link} {t : Prop} (hl : Link.pair v w ∈ borrow) (name : String) :
    Twin (heapBridge K) borrow {Link.pair x y} t (setProperty v name x) (setProperty w name y) Done :=
  .of_bond fun _ _ _ _ _ _ hb hborrow =>
    hb.leads_setProperty (hb.counterpart (Multiset.mem_add.2 (.inr (hborrow _ hl)))) name

theorem Bond.leads_deleteProperty (hb : Bond K.size G ψ ψ' (0 + P) h h') (hc : Counterpart ψ ψ' h h' v w)
    (name : String) : Leads K P Same h h' (deleteProperty v name h) (deleteProperty w name h') := by
  have hfalse : Leads K P Same h h' ((pure false : HeapM Bool) h) ((pure false : HeapM Bool) h') :=
    .inl ⟨false, false, h, h', rfl, rfl, rfl, rfl, 0, ⟨rfl, rfl⟩, G, ψ, ψ', hb⟩
  unfold deleteProperty
  rw [bind_of_ok (get_heap h), bind_of_ok (get_heap h')]
  rcases hb.cases_body hc with ⟨hv, hw⟩ | ⟨b, hv, hw, hs⟩ | ⟨es, es', wr, k, k', hv, hw, hes, hk⟩ |
    ⟨xs, xs', hv, hw, hxs⟩
  · rw [hv, hw]
    exact hfalse
  · rw [hv, hw]
    cases b with
    | object table k => cases hs
    | _ => exact hfalse
  · simp only [hv, hw, PropertyTable.find?, PropertyTable.erase]
    obtain ⟨hold, hold'⟩ | ⟨o, o', hold, hold', hsame⟩ := hes.lookup name
    · simp only [hold, hold']
      exact hfalse
    · simp only [hold, hold']
      have hoo : Counterpart ψ ψ' h h' o o' :=
        hb.child hc.left hc.right hv hw (lookup_mem hold) (lookup_mem hold') hsame
      have herased (es : List (String × Value)) (hes : .unbound ∉ es.map (·.2)) :
          .unbound ∉ (es.eraseP (·.1 = name)).map (·.2) := fun hm =>
        hes ((List.eraseP_sublist.map _).subset hm)
      refine (hb.leads_setBody hc hv hw rfl (shape_object (hes.eraseP name) hk wr) {Link.pair o o'}
        (by simpa using hb.agrees_pair hoo) (fun a => ?_) (fun a => ?_)
        (herased es (hb.unbound_notMem hc.left hv)) (herased es' (hb.unbound_notMem_right hc.right hw))
        rfl rfl).bind fun _ _ R h₁ h₁' G ψ ψ' hR hb => ?_
      · rw [lefts_singleton, lefts_pair, lefts_zero, zero_add]
        exact congrArg (Multiset.count (Value.ref a)) (children_eraseP hold)
      · rw [rights_singleton, rights_pair, rights_zero, zero_add]
        exact congrArg (Multiset.count (Value.ref a)) (children_eraseP hold')
      · subst hR
        refine hb.leads_release.bind fun _ _ R h₂ h₂' G ψ ψ' hR hb => ?_
        exact .inl ⟨true, true, h₂, h₂', rfl, rfl, rfl, rfl, R, ⟨rfl, hR⟩, G, ψ, ψ', hb⟩
  · rw [hv, hw]
    exact hfalse

theorem twin_deleteProperty {borrow : List Link} {t : Prop} (hl : Link.pair v w ∈ borrow)
    (name : String) :
    Twin (heapBridge K) borrow 0 t (deleteProperty v name) (deleteProperty w name) Same :=
  .of_bond fun _ _ _ _ _ _ hb hborrow =>
    hb.leads_deleteProperty (hb.counterpart (Multiset.mem_add.2 (.inr (hborrow _ hl)))) name

/-! ## New objects and native functions -/

variable {borrow : List Link} {t : Prop} {cs : List (Value × Value)} {α β : Type}

theorem twin_newArray : Twin (heapBridge K) borrow (pairLinks cs) t
    (newArray (cs.map (·.1)).toArray) (newArray (cs.map (·.2)).toArray) Gives := by
  refine .of_bond fun G ψ ψ' P h h' hb _ => ?_
  have hs : (Body.array (cs.map (·.1)).toArray).shape ψ = (Body.array (cs.map (·.2)).toArray).shape ψ' := by
    simp only [Body.shape, List.map_map, Shape.array.injEq]
    refine List.map_congr_left fun p hp => ?_
    have hl : Link.pair p.1 p.2 ∈ pairLinks cs + P :=
      Multiset.mem_add.2 (.inl (Multiset.mem_coe.2 (List.mem_map_of_mem hp)))
    exact (hb.counterpart hl).same
  exact .inl ⟨_, _, _, _, rfl, rfl, rfl, rfl, _, rfl, _, _, _,
    hb.alloc_node rfl rfl hs (by simp [Body.maker?]) (by simp [Body.maker?])⟩

theorem twin_newObject_none : Twin (heapBridge K) borrow 0 t (newObject none) (newObject none) Gives := by
  refine .of_bond fun G ψ ψ' P h h' hb _ => ?_
  have hb : Bond K.size G ψ ψ' (pairLinks [] + P) h h' := hb
  exact .inl ⟨_, _, _, _, rfl, rfl, rfl, rfl, _, rfl, _, _, _, hb.alloc_node rfl rfl rfl nofun nofun⟩

/-- A new object of a function. -/
theorem twin_newObject {a a' : Address} (hl : Link.pair (.ref a) (.ref a') ∈ borrow) :
    Twin (heapBridge K) borrow 0 t (newObject (some a)) (newObject (some a')) Gives := by
  refine .of_bond fun G ψ ψ' P h h' hb hborrow => ?_
  have hc : Counterpart ψ ψ' h h' (.ref a) (.ref a') :=
    hb.counterpart (Multiset.mem_add.2 (.inr (hborrow _ hl)))
  have hb : Bond K.size G ψ ψ' (pairLinks [] + P) h h' := hb
  obtain ⟨c, hcell, -⟩ := hc.left
  obtain ⟨c', hcell', -⟩ := hc.right
  have hmaker : (some a).map ψ = (some a').map ψ' := congrArg some hc.same
  have hs : (Body.object {} (some a)).shape ψ = (Body.object {} (some a')).shape ψ' :=
    shape_object .nil hmaker true
  refine .inl ⟨_, _, _, _, rfl, rfl, rfl, rfl, _, rfl, _, _, _, hb.alloc_node rfl rfl hs ?_ ?_⟩
  · rintro k ⟨⟩
    exact (Array.getElem?_eq_some_iff.1 hcell).1
  · rintro k ⟨⟩
    exact (Array.getElem?_eq_some_iff.1 hcell').1

theorem twin_raise {R : α → β → Multiset Link → Prop} (kind message : String) :
    Twin (heapBridge K) borrow 0 True (raise kind message) (raise kind message) R := by
  refine (twin_alloc rfl).bind fun v w P hP => ?_
  rw [hP]
  exact Twin.thrown (heapBridge_plain K)

/-- New references to all values of a list. -/
theorem twin_forM_retain
    (hcs : ∀ p ∈ cs, Twin (heapBridge K) borrow 0 False (retain p.1) (retain p.2) fun _ _ Q =>
      Q = {Link.pair p.1 p.2}) :
    Twin (heapBridge K) borrow 0 t ((cs.map (·.1)).forM retain) ((cs.map (·.2)).forM retain)
      fun _ _ Q => Q = pairLinks cs := by
  induction cs generalizing t with
  | nil => exact Twin.pure rfl
  | cons p cs ih =>
    obtain ⟨hp, hcs⟩ := List.forall_mem_cons.1 hcs
    simp only [List.map_cons]
    refine (hp.mono (fun _ hl => hl) False.elim fun _ _ _ hP => hP).bind fun _ _ P hP => ?_
    have hrest := (ih (t := False) hcs).frame (t := t) P
    rw [zero_add] at hrest
    refine hrest.imp fun _ _ Q hQ => ?_
    obtain ⟨P₀, rfl, rfl⟩ := hQ
    rw [hP, add_comm]
    rfl

theorem twin_retainEach (hcs : ∀ p ∈ cs, Link.pair p.1 p.2 ∈ borrow) :
    Twin (heapBridge K) borrow 0 t ((cs.map (·.1)).forM retain) ((cs.map (·.2)).forM retain)
      fun _ _ Q => Q = pairLinks cs :=
  twin_forM_retain fun p hp => twin_retain (hcs p hp)

theorem twin_fillFrom (hl : Link.pair v w ∈ borrow) (hcs : ∀ p ∈ cs, Link.pair p.1 p.2 ∈ borrow)
    (i : Nat) : Twin (heapBridge K) borrow 0 t (fillFrom v i (cs.map (·.1)))
      (fillFrom w i (cs.map (·.2))) Done := by
  induction cs generalizing i with
  | nil => exact Twin.pure rfl
  | cons p cs ih =>
    simp only [List.map_cons, fillFrom]
    refine (twin_retain (hcs p List.mem_cons_self)).bind fun _ _ P hP => ?_
    subst hP
    refine (twin_setProperty hl _).bind fun _ _ P hP => ?_
    rw [hP]
    exact ih (fun q hq => hcs q (List.mem_cons_of_mem _ hq)) (i + 1)

theorem twin_native (hl : Link.pair v w ∈ borrow) (hcs : ∀ p ∈ cs, Link.pair p.1 p.2 ∈ borrow)
    (n : Native) (name : String) :
    Twin (heapBridge K) borrow 0 True (n.run name v (cs.map (·.1))) (n.run name w (cs.map (·.2)))
      Gives := by
  cases n with
  | nothing => exact twin_immortal nofun nofun
  | receiver => exact twin_shared hl
  | first =>
    cases cs with
    | nil => exact twin_immortal nofun nofun
    | cons p cs => exact twin_shared (hcs p List.mem_cons_self)
  | count =>
    simp only [Native.run, List.length_map]
    exact twin_alloc rfl
  | collect =>
    refine (twin_retainEach hcs).bind fun _ _ P hP => ?_
    rw [hP]
    exact twin_newArray
  | fill =>
    refine (twin_fillFrom hl hcs 0).bind fun _ _ P hP => ?_
    rw [hP]
    exact twin_alloc rfl
  | fail =>
    refine (twin_alloc rfl).bind fun _ _ P hP => ?_
    rw [hP]
    exact Twin.thrown (heapBridge_plain K)

end MethodJit
