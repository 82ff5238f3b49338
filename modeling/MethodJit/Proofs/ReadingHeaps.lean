import MethodJit.Heap.Comparison
import MethodJit.Heap.Property
import MethodJit.Proofs.Bond
import MethodJit.Proofs.Texts

/-!
# Reading linked heaps

Values that stand for the same have the same kind, number, word, truth value and text in both heaps, and
compare in the same way. `Reads` says of two actions that they only look at the heaps and find the same.
-/

namespace MethodJit

variable {base : Nat} {G : Graph} {ψ ψ' : Naming} {P : Multiset Link} {h h' : Heap} {K : Origin}
  {v w v₂ w₂ : Value}

namespace Bond

theorem alike (hb : Bond base G ψ ψ' P h h') (hc : Counterpart ψ ψ' h h' v w) :
    Body.Alike ψ ψ' (h.body? v) (h'.body? w) := hb.left.alike hb.right hc.left hc.right hc.same

/-- Values that stand for the same are the same immortal value, or have a cell each. -/
theorem immortal_or_refs (hb : Bond base G ψ ψ' P h h') (hc : Counterpart ψ ψ' h h' v w) :
    (v = w ∧ ∀ a, v ≠ .ref a) ∨ ∃ a a', v = .ref a ∧ w = .ref a' := by
  have hname (a : Address) (hv : h.Live (.ref a)) : (∃ b, ψ a = .boxed b) ∨ ∃ n, ψ a = .node n := by
    obtain ⟨c, hcell, -⟩ := hv
    have hnamed := hb.left.named a c hcell
    cases hψ : ψ a <;> rw [hψ] at hnamed <;> simp_all [Sym.Names]
  have hname' (a : Address) (hv : h'.Live (.ref a)) : (∃ b, ψ' a = .boxed b) ∨ ∃ n, ψ' a = .node n := by
    obtain ⟨c, hcell, -⟩ := hv
    have hnamed := hb.right.named a c hcell
    cases hψ : ψ' a <;> rw [hψ] at hnamed <;> simp_all [Sym.Names]
  obtain ⟨hv, hw, hsame⟩ := hc
  cases v with
  | unbound => exact hv.elim
  | ref a =>
    cases w with
    | unbound => exact hw.elim
    | ref a' => exact .inr ⟨a, a', rfl, rfl⟩
    | _ =>
      simp only [Naming.of] at hsame
      rcases hname a hv with ⟨b, hb⟩ | ⟨n, hn⟩ <;> simp_all
  | _ =>
    cases w with
    | unbound => exact hw.elim
    | ref a' =>
      simp only [Naming.of] at hsame
      rcases hname' a' hw with ⟨b, hb⟩ | ⟨n, hn⟩ <;> simp_all
    | _ => simp_all [Naming.of]

theorem kind?_eq (hb : Bond base G ψ ψ' P h h') (hc : Counterpart ψ ψ' h h' v w) :
    h.kind? v = h'.kind? w := by
  have hal := hb.alike hc
  obtain ⟨rfl, hv⟩ | ⟨a, a', rfl, rfl⟩ := hb.immortal_or_refs hc
  · cases v with
    | ref a => exact absurd rfl (hv a)
    | _ => rfl
  · simp only [Heap.kind?]
    generalize h.body? (.ref a) = o, h'.body? (.ref a') = o' at hal ⊢
    cases hal <;> rfl

end Bond

theorem Heap.Live.exists_kind (hv : h.Live v) : ∃ k, h.kind? v = some k := by
  cases v with
  | unbound => exact hv.elim
  | ref a =>
    obtain ⟨c, hcell, -⟩ := hv
    exact ⟨c.body.kind, by simp [Heap.kind?, Heap.body?, Heap.cell?, hcell]⟩
  | _ => exact ⟨_, rfl⟩

namespace Bond

theorem toNumber_eq (hb : Bond base G ψ ψ' P h h') (hc : Counterpart ψ ψ' h h' v w) :
    h.toNumber v = h'.toNumber w := by
  have hal := hb.alike hc
  obtain ⟨rfl, hv⟩ | ⟨a, a', rfl, rfl⟩ := hb.immortal_or_refs hc
  · cases v with
    | ref a => exact absurd rfl (hv a)
    | _ => rfl
  · simp only [Heap.toNumber]
    generalize h.body? (.ref a) = o, h'.body? (.ref a') = o' at hal ⊢
    cases hal <;> rfl

theorem toInt32_eq (hb : Bond base G ψ ψ' P h h') (hc : Counterpart ψ ψ' h h' v w) :
    h.toInt32 v = h'.toInt32 w := by
  have hal := hb.alike hc
  have hnum := hb.toNumber_eq hc
  unfold Heap.toInt32
  rw [hnum]
  generalize h.body? v = o, h'.body? w = o' at hal ⊢
  cases hal <;> rfl

theorem toBool_eq (hb : Bond base G ψ ψ' P h h') (hc : Counterpart ψ ψ' h h' v w) :
    h.toBool v = h'.toBool w := by
  have hal := hb.alike hc
  obtain ⟨rfl, hv⟩ | ⟨a, a', rfl, rfl⟩ := hb.immortal_or_refs hc
  · cases v with
    | ref a => exact absurd rfl (hv a)
    | unbound => exact hc.left.elim
    | _ => rfl
  · simp only [Heap.toBool]
    generalize h.body? (.ref a) = o, h'.body? (.ref a') = o' at hal ⊢
    cases hal <;> rfl

/-- What two cells hold that stand for the same. -/
theorem child (hb : Bond base G ψ ψ' P h h') {b b' : Body} (hv : h.Live v) (hw : h'.Live w)
    (hbody : h.body? v = some b) (hbody' : h'.body? w = some b') (hx : v₂ ∈ b.children)
    (hy : w₂ ∈ b'.children) (hsame : ψ.of v₂ = ψ'.of w₂) : Counterpart ψ ψ' h h' v₂ w₂ := by
  refine ⟨?_, ?_, hsame⟩
  · cases v with
    | ref a =>
      obtain ⟨c, hc, hlive⟩ := hv
      simp only [Heap.body?, Heap.cell?, hc, Option.map_some, Option.some.injEq] at hbody
      exact hb.left.live_of_child hc hlive (hbody ▸ hx)
    | _ => cases hbody
  · cases w with
    | ref a =>
      obtain ⟨c, hc, hlive⟩ := hw
      simp only [Heap.body?, Heap.cell?, hc, Option.map_some, Option.some.injEq] at hbody'
      exact hb.right.live_of_child hc hlive (hbody' ▸ hy)
    | _ => cases hbody'

/-- The elements of two arrays that stand for the same. -/
theorem elems (hb : Bond base G ψ ψ' P h h') (hv : h.Live v) (hw : h'.Live w) {xs xs' : Array Value}
    (hbody : h.body? v = some (.array xs)) (hbody' : h'.body? w = some (.array xs'))
    (hxs : List.Forall₂ (fun x x' => ψ.of x = ψ'.of x') xs.toList xs'.toList) :
    List.Forall₂ (Counterpart ψ ψ' h h') xs.toList xs'.toList := by
  rw [List.forall₂_iff_get] at hxs ⊢
  refine ⟨hxs.1, fun i hi hi' => hb.child hv hw hbody hbody' ?_ ?_ (hxs.2 i hi hi')⟩
  · exact List.get_mem xs.toList ⟨i, hi⟩
  · exact List.get_mem xs'.toList ⟨i, hi'⟩

theorem isNullish_eq (hb : Bond base G ψ ψ' P h h') (hc : Counterpart ψ ψ' h h' v w) :
    v.isNullish = w.isNullish := by
  obtain ⟨rfl, -⟩ | ⟨a, a', rfl, rfl⟩ := hb.immortal_or_refs hc <;> rfl

end Bond

theorem mapM_congr {α β γ : Type} {f : α → Except Fault γ} {g : β → Except Fault γ} {l : List α}
    {l' : List β} (hl : List.Forall₂ (fun x y => f x = g y) l l') : l.mapM f = l'.mapM g := by
  induction hl with
  | nil => rfl
  | cons hx _ ih => rw [List.mapM_cons, List.mapM_cons, hx, ih]

theorem mapM_cases {α β : Type} {f : α → Except Fault β} {l : List α}
    (hf : ∀ x ∈ l, (∃ b, f x = .ok b) ∨ f x = .error .endless) :
    (∃ bs, l.mapM f = .ok bs) ∨ l.mapM f = .error .endless := by
  induction l with
  | nil => exact .inl ⟨[], rfl⟩
  | cons x l ih =>
    rw [List.mapM_cons]
    rcases hf x List.mem_cons_self with ⟨b, hb⟩ | hb
    · rcases ih fun y hy => hf y (List.mem_cons_of_mem _ hy) with ⟨bs, hbs⟩ | hbs
      · exact .inl ⟨b :: bs, by rw [hb, hbs]; rfl⟩
      · exact .inr (by rw [hb, hbs]; rfl)
    · exact .inr (by rw [hb]; rfl)

theorem Heap.Live.isBound (hv : h.Live v) : v.isBound = true := isBound_of_ne hv.ne_unbound

/-- The text of a value is found, or is not found within the depth. -/
theorem Heap.Bound.textWithin_cases (hbound : h.Bound) (v : Value) (d : Nat) :
    (∃ s, h.textWithin d v = .ok s) ∨ h.textWithin d v = .error .endless := by
  induction d generalizing v with
  | zero => exact .inr rfl
  | succ d ih =>
    by_cases harr : ∀ a xs, v = .ref a → h.body? v ≠ some (.array xs)
    · cases v with
      | ref a =>
        simp only [Heap.textWithin]
        cases hbody : h.body? (.ref a) with
        | none => exact .inl ⟨_, rfl⟩
        | some b =>
          cases b with
          | array xs => exact absurd hbody (harr a xs rfl)
          | _ => exact .inl ⟨_, rfl⟩
      | _ => exact .inl ⟨_, rfl⟩
    · push Not at harr
      obtain ⟨a, xs, rfl, hbody⟩ := harr
      rw [Heap.textWithin_array hbody]
      have hparts : (∃ ss, xs.toList.mapM (h.elemText d) = .ok ss) ∨
          xs.toList.mapM (h.elemText d) = .error .endless := by
        refine mapM_cases fun x hx => ?_
        have hne : x ≠ .unbound := fun heq => hbound.notMem hbody (heq ▸ hx)
        unfold Heap.elemText
        split
        · exact .inl ⟨_, rfl⟩
        · rw [if_pos (isBound_of_ne hne)]
          exact ih x
      rcases hparts with ⟨ss, hss⟩ | hend
      · exact .inl ⟨_, by rw [hss]; rfl⟩
      · exact .inr (by rw [hend]; rfl)

namespace Bond

theorem textWithin_eq (hb : Bond base G ψ ψ' P h h') (hc : Counterpart ψ ψ' h h' v w) (d : Nat) :
    h.textWithin d v = h'.textWithin d w := by
  induction d generalizing v w with
  | zero => rfl
  | succ d ih =>
    have hal := hb.alike hc
    obtain ⟨rfl, hv⟩ | ⟨a, a', rfl, rfl⟩ := hb.immortal_or_refs hc
    · cases v with
      | ref a => exact absurd rfl (hv a)
      | unbound => exact hc.left.elim
      | _ => rfl
    · cases hbody : h.body? (.ref a) with
      | none =>
        cases hbody' : h'.body? (.ref a') with
        | none => simp only [Heap.textWithin, hbody, hbody']
        | some b' =>
          rw [hbody, hbody'] at hal
          cases hal
      | some b =>
        cases hbody' : h'.body? (.ref a') with
        | none =>
          rw [hbody, hbody'] at hal
          cases hal
        | some b' =>
          rw [hbody, hbody'] at hal
          cases hal with
          | plain b _ hplain =>
            cases b with
            | array xs => cases hplain
            | _ => simp only [Heap.textWithin, hbody, hbody']
          | object es es' wr k k' hes hk => simp only [Heap.textWithin, hbody, hbody']
          | array xs xs' hxs =>
            rw [Heap.textWithin_array hbody, Heap.textWithin_array hbody']
            have helems := hb.elems hc.left hc.right hbody hbody' hxs
            have hparts : xs.toList.mapM (h.elemText d) = xs'.toList.mapM (h'.elemText d) := by
              refine mapM_congr (helems.imp fun x x' hx => ?_)
              simp only [Heap.elemText, hb.isNullish_eq hx, hx.left.isBound, hx.right.isBound, ih hx]
            rw [hparts]

theorem toText_eq (hb : Bond base G ψ ψ' P h h') (hc : Counterpart ψ ψ' h h' v w) :
    h.toText v = h'.toText w := by
  have hle : h.cells.size + 1 ≤ max (h.cells.size + 1) (h'.cells.size + 1) := Nat.le_max_left _ _
  have hle' : h'.cells.size + 1 ≤ max (h.cells.size + 1) (h'.cells.size + 1) := Nat.le_max_right _ _
  rw [← Heap.textWithin_eq_toText hle, ← Heap.textWithin_eq_toText hle', hb.textWithin_eq hc]

/-- The text of a value exists or has no end. -/
theorem toText_cases (hb : Bond base G ψ ψ' P h h') (v : Value) :
    (∃ s, h.toText v = .ok s) ∨ h.toText v = .error .endless :=
  Heap.Bound.textWithin_cases hb.left.accounted.bound v _

/-- Objects keep their identity. -/
theorem eq_iff (hb : Bond base G ψ ψ' P h h') (hc : Counterpart ψ ψ' h h' v w)
    (hc₂ : Counterpart ψ ψ' h h' v₂ w₂) (hboxed : ∀ b, ψ.of v ≠ .boxed b) : v = v₂ ↔ w = w₂ := by
  obtain ⟨rfl, hv⟩ | ⟨a, a', rfl, rfl⟩ := hb.immortal_or_refs hc
  · obtain ⟨rfl, -⟩ | ⟨a₂, a₂', rfl, rfl⟩ := hb.immortal_or_refs hc₂
    · exact Iff.rfl
    · simp only [hv a₂, hv a₂']
  · obtain ⟨rfl, hv₂⟩ | ⟨a₂, a₂', rfl, rfl⟩ := hb.immortal_or_refs hc₂
    · simp only [(hv₂ a).symm, (hv₂ a').symm]
    · obtain ⟨c, hcell, -⟩ := hc.left
      obtain ⟨c', hcell', -⟩ := hc.right
      obtain ⟨c₂, hcell₂, -⟩ := hc₂.left
      obtain ⟨c₂', hcell₂', -⟩ := hc₂.right
      have hlt {h : Heap} {a : Address} {c : Cell} (hcell : h.cells[a]? = some c) :
          a < h.cells.size := (Array.getElem?_eq_some_iff.1 hcell).1
      have hnamed := hb.left.named a c hcell
      have hsame : ψ a = ψ' a' := hc.same
      have hsame₂ : ψ a₂ = ψ' a₂' := hc₂.same
      cases hψ : ψ a with
      | node n =>
        constructor
        · rintro heq
          obtain rfl := Value.ref.inj heq
          rw [hb.right.injective a' a₂' n (hlt hcell') (hlt hcell₂') (hsame ▸ hψ) (hsame₂ ▸ hψ)]
        · rintro heq
          obtain rfl := Value.ref.inj heq
          have hψ₂ : ψ a₂ = .node n := by rw [hsame₂, ← hsame, hψ]
          rw [hb.left.injective a a₂ n (hlt hcell) (hlt hcell₂) hψ hψ₂]
      | boxed b => exact absurd hψ (hboxed b)
      | _ =>
        rw [hψ] at hnamed
        exact hnamed.elim

/-- A value that is known by its contents is a number or a text. -/
theorem body_of_boxed (hb : Bond base G ψ ψ' P h h') (hv : h.Live v) {b : Body}
    (hψ : ψ.of v = .boxed b) : h.body? v = some b ∧ b.isPrimitive = true := by
  cases v with
  | ref a =>
    obtain ⟨c, hc, -⟩ := hv
    have hnamed := hb.left.named a c hc
    rw [show ψ a = .boxed b from hψ] at hnamed
    obtain ⟨rfl, hp⟩ := hnamed
    exact ⟨by simp [Heap.body?, Heap.cell?, hc], Body.isPrimitive_of_isInt hp⟩
  | _ => cases hψ

theorem strictEqualsAt_eq (hb : Bond base G ψ ψ' P h h') (hc : Counterpart ψ ψ' h h' v w)
    (hc₂ : Counterpart ψ ψ' h h' v₂ w₂) {k l : Kind} (hk : h.kind? v = some k)
    (hl : h.kind? v₂ = some l) :
    h.strictEqualsAt k l v v₂ = h'.strictEqualsAt k l w w₂ := by
  unfold Heap.strictEqualsAt
  rw [hb.toNumber_eq hc, hb.toNumber_eq hc₂]
  split
  · rfl
  · rename_i hnum
    split
    · rfl
    · rename_i hkl
      obtain rfl : k = l := by simpa using hkl
      by_cases hboxed : ∃ b, ψ.of v = .boxed b
      · -- Two texts, which are compared by their contents.
        obtain ⟨b, hψ⟩ := hboxed
        obtain ⟨hbody, hp⟩ := hb.body_of_boxed hc.left hψ
        have hkind : k = b.kind := by
          cases v with
          | ref a => simpa [Heap.kind?, hbody, eq_comm] using hk
          | _ => cases hψ
        cases b with
        | string s =>
          have hal := hb.alike hc
          have hal₂ := hb.alike hc₂
          rw [hbody] at hal
          generalize h'.body? w = o' at hal ⊢
          cases hal
          obtain ⟨t, ht⟩ : ∃ t, h.body? v₂ = some (.string t) := by
            cases v₂ with
            | ref a₂ =>
              simp only [Heap.kind?] at hl
              obtain ⟨b₂, hb₂, hk₂⟩ := Option.map_eq_some_iff.1 hl
              rw [hkind] at hk₂
              cases b₂ with
              | string t => exact ⟨t, hb₂⟩
              | _ => cases hk₂
            | _ => simp_all [Heap.kind?, Body.kind]
          rw [ht] at hal₂ ⊢
          generalize h'.body? w₂ = o₂' at hal₂ ⊢
          cases hal₂
          rw [hbody]
        | int n => simp [hkind, Body.kind, Kind.isNumeric] at hnum
        | uint n => simp [hkind, Body.kind, Kind.isNumeric] at hnum
        | number x => simp [hkind, Body.kind, Kind.isNumeric] at hnum
        | _ => cases hp
      · have hid := hb.eq_iff hc hc₂ fun b hψ => hboxed ⟨b, hψ⟩
        have hal := hb.alike hc
        have hal₂ := hb.alike hc₂
        generalize h.body? v = o, h'.body? w = o' at hal ⊢
        generalize h.body? v₂ = o₂, h'.body? w₂ = o₂' at hal₂ ⊢
        cases hal <;> cases hal₂ <;> simp only [hid]

theorem compare_eq (hb : Bond base G ψ ψ' P h h') (hc : Counterpart ψ ψ' h h' v w)
    (hc₂ : Counterpart ψ ψ' h h' v₂ w₂) : h.compare v v₂ = h'.compare w w₂ := by
  have hal := hb.alike hc
  have hal₂ := hb.alike hc₂
  unfold Heap.compare
  rw [hb.toNumber_eq hc, hb.toNumber_eq hc₂]
  generalize h.body? v = o, h'.body? w = o' at hal ⊢
  generalize h.body? v₂ = o₂, h'.body? w₂ = o₂' at hal₂ ⊢
  cases hal with
  | plain b => cases hal₂ <;> cases b <;> rfl
  | _ => cases hal₂ <;> rfl

end Bond

/-- Entries with the same names. -/
theorem any_name_eq {es es' : List (String × Value)} {E : String × Value → String × Value → Prop}
    (hE : ∀ e e', E e e' → e.1 = e'.1) (hes : List.Forall₂ E es es') (name : String) :
    es.any (·.1 = name) = es'.any (·.1 = name) := by
  induction hes with
  | nil => rfl
  | cons he _ ih => simp only [List.any_cons, hE _ _ he, ih]

namespace Bond

theorem has_eq (hb : Bond base G ψ ψ' P h h') (hc : Counterpart ψ ψ' h h' v w) (name : String) :
    h.has v name = h'.has w name := by
  have hal := hb.alike hc
  unfold Heap.has
  generalize h.body? v = o, h'.body? w = o' at hal ⊢
  cases hal with
  | none => rfl
  | plain b => rfl
  | object es es' wr k k' hes hk => exact any_name_eq (fun _ _ he => he.1) hes name
  | array xs xs' hxs =>
    have hsize : xs.size = xs'.size := hxs.length_eq
    simp only [hsize]

theorem enumSize_eq (hb : Bond base G ψ ψ' P h h') (hc : Counterpart ψ ψ' h h' v w) :
    h.enumSize v = h'.enumSize w := by
  have hal := hb.alike hc
  unfold Heap.enumSize
  generalize h.body? v = o, h'.body? w = o' at hal ⊢
  cases hal with
  | none => rfl
  | plain b => rfl
  | object es es' wr k k' hes hk => exact hes.length_eq
  | array xs xs' hxs => exact hxs.length_eq

end Bond

theorem Heap.toInt32_of_int {n : Int32} (hv : h.body? v = some (.int n)) : h.toInt32 v = n := by
  simp only [Heap.toInt32, hv]

/-! ## Actions that only read -/

variable {α β : Type} {ls borrow : List Link} {pre : Multiset Link} {t : Prop}

def Reads (K : Origin) (ls : List Link) (x y : HeapM α) : Prop :=
  ∀ G ψ ψ' P h h', Bond K.size G ψ ψ' P h h' → (∀ l ∈ ls, l ∈ P) →
    (∃ a, x h = .ok a h ∧ y h' = .ok a h') ∨ (x h = .error .endless h ∧ y h' = .error .endless h')

namespace Reads

protected theorem pure (a : α) : Reads K ls (pure a) (pure a) := fun _ _ _ _ _ _ _ _ =>
  .inl ⟨a, rfl, rfl⟩

theorem bind {x y : HeapM α} {f g : α → HeapM β} (hx : Reads K ls x y)
    (hf : ∀ a, Reads K ls (f a) (g a)) : Reads K ls (x >>= f) (y >>= g) := by
  intro G ψ ψ' P h h' hb hls
  obtain ⟨a, hx, hy⟩ | ⟨hx, hy⟩ := hx G ψ ψ' P h h' hb hls
  · rw [bind_of_ok hx, bind_of_ok hy]
    exact hf a G ψ ψ' P h h' hb hls
  · rw [bind_of_error hx, bind_of_error hy]
    exact .inr ⟨rfl, rfl⟩

theorem kindOf (hl : Link.pair v w ∈ ls) : Reads K ls (kindOf v) (kindOf w) := by
  intro G ψ ψ' P h h' hb hls
  have hc : Counterpart ψ ψ' h h' v w := hb.counterpart (hls _ hl)
  obtain ⟨k, hk⟩ := hc.left.exists_kind
  have hk' : h'.kind? w = some k := by rw [← hb.kind?_eq hc, hk]
  exact .inl ⟨k, by simp [MethodJit.kindOf, hk], by simp [MethodJit.kindOf, hk']⟩

theorem numberOf (hl : Link.pair v w ∈ ls) : Reads K ls (numberOf v) (numberOf w) := by
  intro G ψ ψ' P h h' hb hls
  exact .inl ⟨_, rfl, by rw [MethodJit.numberOf, hb.toNumber_eq (hb.counterpart (hls _ hl))]⟩

theorem wordOf (hl : Link.pair v w ∈ ls) : Reads K ls (wordOf v) (wordOf w) := by
  intro G ψ ψ' P h h' hb hls
  exact .inl ⟨_, rfl, by rw [MethodJit.wordOf, hb.toInt32_eq (hb.counterpart (hls _ hl))]⟩

theorem truthOf (hl : Link.pair v w ∈ ls) : Reads K ls (truthOf v) (truthOf w) := by
  intro G ψ ψ' P h h' hb hls
  exact .inl ⟨_, rfl, by rw [MethodJit.truthOf, hb.toBool_eq (hb.counterpart (hls _ hl))]⟩

theorem textOf (hl : Link.pair v w ∈ ls) : Reads K ls (textOf v) (textOf w) := by
  intro G ψ ψ' P h h' hb hls
  have hc : Counterpart ψ ψ' h h' v w := hb.counterpart (hls _ hl)
  have heq := hb.toText_eq hc
  obtain ⟨s, hs⟩ | hs := hb.toText_cases v
  · rw [hs] at heq
    exact .inl ⟨s, by simp [MethodJit.textOf, hs], by simp [MethodJit.textOf, ← heq]⟩
  · rw [hs] at heq
    exact .inr ⟨by simp [MethodJit.textOf, hs], by simp [MethodJit.textOf, ← heq]⟩

theorem numericallyEqual (hl : Link.pair v w ∈ ls) (hl₂ : Link.pair v₂ w₂ ∈ ls) :
    Reads K ls (numericallyEqual v v₂) (numericallyEqual w w₂) :=
  (numberOf hl).bind fun _ => (numberOf hl₂).bind fun _ => .pure _

theorem strictEquals (hl : Link.pair v w ∈ ls) (hl₂ : Link.pair v₂ w₂ ∈ ls) :
    Reads K ls (strictEquals v v₂) (strictEquals w w₂) := by
  intro G ψ ψ' P h h' hb hls
  have hc : Counterpart ψ ψ' h h' v w := hb.counterpart (hls _ hl)
  have hc₂ : Counterpart ψ ψ' h h' v₂ w₂ := hb.counterpart (hls _ hl₂)
  obtain ⟨k, hk⟩ := hc.left.exists_kind
  obtain ⟨l, hkl⟩ := hc₂.left.exists_kind
  have hk' : h'.kind? w = some k := by rw [← hb.kind?_eq hc, hk]
  have hkl' : h'.kind? w₂ = some l := by rw [← hb.kind?_eq hc₂, hkl]
  refine .inl ⟨h.strictEqualsAt k l v v₂, ?_, ?_⟩
  · have hx : MethodJit.kindOf v h = .ok k h := by simp [MethodJit.kindOf, hk]
    have hx₂ : MethodJit.kindOf v₂ h = .ok l h := by simp [MethodJit.kindOf, hkl]
    rw [MethodJit.strictEquals, bind_of_ok hx, bind_of_ok hx₂]
    rfl
  · have hx : MethodJit.kindOf w h' = .ok k h' := by simp [MethodJit.kindOf, hk']
    have hx₂ : MethodJit.kindOf w₂ h' = .ok l h' := by simp [MethodJit.kindOf, hkl']
    rw [MethodJit.strictEquals, bind_of_ok hx, bind_of_ok hx₂, hb.strictEqualsAt_eq hc hc₂ hk hkl]
    rfl

end Reads

/-- A value of the kind of an object is not known by its contents. -/
theorem Bond.not_boxed (hb : Bond base G ψ ψ' P h h') (hv : h.Live v) {k : Kind}
    (hk : h.kind? v = some k) (hnum : k.isNumeric = false) (hstr : k ≠ .string) (b : Body) :
    ψ.of v ≠ .boxed b := by
  intro hψ
  obtain ⟨hbody, hp⟩ := hb.body_of_boxed hv hψ
  have hkind : k = b.kind := by
    cases v with
    | ref a => simpa [Heap.kind?, hbody, eq_comm] using hk
    | _ => cases hψ
  subst hkind
  cases b <;> simp_all [Body.kind, Kind.isNumeric, Body.isPrimitive]

namespace Reads

theorem looseEquals (hl : Link.pair v w ∈ ls) (hl₂ : Link.pair v₂ w₂ ∈ ls) :
    Reads K ls (looseEquals v v₂) (looseEquals w w₂) := by
  intro G ψ ψ' P h h' hb hls
  have hc : Counterpart ψ ψ' h h' v w := hb.counterpart (hls _ hl)
  have hc₂ : Counterpart ψ ψ' h h' v₂ w₂ := hb.counterpart (hls _ hl₂)
  obtain ⟨k, hk⟩ := hc.left.exists_kind
  obtain ⟨l, hkl⟩ := hc₂.left.exists_kind
  have hx : MethodJit.kindOf v h = .ok k h := by simp [MethodJit.kindOf, hk]
  have hx₂ : MethodJit.kindOf v₂ h = .ok l h := by simp [MethodJit.kindOf, hkl]
  have hy : MethodJit.kindOf w h' = .ok k h' := by simp [MethodJit.kindOf, ← hb.kind?_eq hc, hk]
  have hy₂ : MethodJit.kindOf w₂ h' = .ok l h' := by simp [MethodJit.kindOf, ← hb.kind?_eq hc₂, hkl]
  rw [MethodJit.looseEquals, bind_of_ok hx, bind_of_ok hx₂]
  rw [MethodJit.looseEquals, bind_of_ok hy, bind_of_ok hy₂]
  by_cases hnull : (k.isNullish || l.isNullish) = true
  · rw [if_pos hnull, if_pos hnull]
    exact .inl ⟨_, rfl, rfl⟩
  rw [if_neg hnull, if_neg hnull]
  by_cases hstrict : (k = l || (k.isNumeric && l.isNumeric)) = true
  · rw [if_pos hstrict, if_pos hstrict]
    exact .inl ⟨_, rfl, by rw [hb.strictEqualsAt_eq hc hc₂ hk hkl]; rfl⟩
  rw [if_neg hstrict, if_neg hstrict]
  split
  · exact numericallyEqual hl hl₂ G ψ ψ' P h h' hb hls
  · split
    · refine ((textOf hl).bind fun s => (textOf hl₂).bind fun s' => ?_) G ψ ψ' P h h' hb hls
      split
      · exact .pure _
      · exact numericallyEqual hl hl₂
    · rename_i hother
      simp only [Bool.or_eq_true, decide_eq_true_eq, not_or] at hother
      have hid := hb.eq_iff hc hc₂ (hb.not_boxed hc.left hk (by simpa using hother.2) hother.1.2)
      exact .inl ⟨_, rfl, by simp only [hid]; rfl⟩

theorem lessThan (hl : Link.pair v w ∈ ls) (hl₂ : Link.pair v₂ w₂ ∈ ls) :
    Reads K ls (lessThan v v₂) (lessThan w w₂) := by
  intro G ψ ψ' P h h' hb hls
  refine .inl ⟨_, rfl, ?_⟩
  rw [MethodJit.lessThan, hb.compare_eq (hb.counterpart (hls _ hl)) (hb.counterpart (hls _ hl₂))]

theorem notLessThan (hl : Link.pair v w ∈ ls) (hl₂ : Link.pair v₂ w₂ ∈ ls) :
    Reads K ls (notLessThan v v₂) (notLessThan w w₂) := by
  intro G ψ ψ' P h h' hb hls
  refine .inl ⟨_, rfl, ?_⟩
  rw [MethodJit.notLessThan, hb.compare_eq (hb.counterpart (hls _ hl)) (hb.counterpart (hls _ hl₂))]

theorem greaterOrEqual (hl : Link.pair v w ∈ ls) (hl₂ : Link.pair v₂ w₂ ∈ ls) :
    Reads K ls (greaterOrEqual v v₂) (greaterOrEqual w w₂) := by
  intro G ψ ψ' P h h' hb hls
  refine .inl ⟨_, rfl, ?_⟩
  simp only [MethodJit.greaterOrEqual,
    hb.compare_eq (hb.counterpart (hls _ hl)) (hb.counterpart (hls _ hl₂))]

/-- What was read can be used in what follows. -/
theorem bind_twin {γ δ : Type} {x y : HeapM α} {f : α → HeapM γ} {g : α → HeapM δ}
    {S : γ → δ → Multiset Link → Prop} (hx : Reads K ls x y)
    (hls : ∀ l ∈ ls, l ∈ borrow ∨ l ∈ pre)
    (hf : ∀ a, Twin (heapBridge K) borrow pre t (f a) (g a) S) :
    Twin (heapBridge K) borrow pre t (x >>= f) (y >>= g) S := by
  intro keep h h' hkeep hj
  have howns := hj.owns_left
  have howns' := hj.owns_right
  obtain ⟨G, ψ, ψ', A, hb, hA⟩ := hj
  obtain ⟨a, hx, hy⟩ | ⟨hx, hy⟩ := hx G ψ ψ' _ h h' hb fun l hl => by
    rcases hls l hl with hl | hl
    · simp [hkeep l hl]
    · simp [hl]
  · rw [bind_of_ok hx, bind_of_ok hy]
    exact hf a keep h h' hkeep ⟨G, ψ, ψ', A, hb, hA⟩
  · rw [bind_of_error hx, bind_of_error hy]
    rw [lefts_add, add_comm] at howns
    rw [rights_add, add_comm] at howns'
    exact ⟨howns.mono, howns'.mono⟩

theorem twin {x y : HeapM α} (hx : Reads K ls x y) (hls : ∀ l ∈ ls, l ∈ borrow) :
    Twin (heapBridge K) borrow 0 t x y Same := by
  have hbind : Twin (heapBridge K) borrow 0 t (x >>= pure) (y >>= pure) Same :=
    hx.bind_twin (fun l hl => .inl (hls l hl)) fun _ => Twin.pure ⟨rfl, rfl⟩
  rwa [bind_pure, bind_pure] at hbind

end Reads

end MethodJit
