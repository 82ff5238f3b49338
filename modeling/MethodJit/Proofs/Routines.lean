import MethodJit.Proofs.Properties
import MethodJit.Routine.Context

/-!
# Routines on linked values

The routines that take values and give one do so in lockstep. Only the conversion to an object and the
test for an instance can throw.
-/

namespace MethodJit

variable {K : Origin} {borrow : List Link} {t : Prop} {v w x y : Value}

theorem twin_newNumeric (x : Double) : Twin (heapBridge K) borrow 0 t (newNumeric x) (newNumeric x) Gives := by
  unfold newNumeric
  split <;> exact twin_alloc rfl

/-- A routine that gives up its operand and makes something new of what it read. -/
theorem twin_consuming_reads {α β γ : Type} {f g : HeapM α} {k : α → HeapM β} {l : α → HeapM γ}
    {R : β → γ → Multiset Link → Prop} (hf : Reads K [Link.pair v w] f g)
    (hk : ∀ a, Twin (heapBridge K) (Link.pair v w :: borrow) 0 t (k a) (l a) R) :
    Twin (heapBridge K) borrow {Link.pair v w} t (consuming v (f >>= k)) (consuming w (g >>= l)) R := by
  have hbody : Twin (heapBridge K) (Link.pair v w :: borrow) 0 t (f >>= k) (g >>= l) R :=
    hf.bind_twin (by simp) hk
  have := twin_consuming hbody
  rwa [add_zero] at this

theorem twin_onNumber (f : Double → Double) :
    Twin (heapBridge K) borrow {Link.pair v w} t (onNumber v f) (onNumber w f) Gives :=
  twin_consuming_reads (Reads.numberOf (by simp)) fun _ => twin_newNumeric _

theorem twin_onWord (f : Int32 → Int32) :
    Twin (heapBridge K) borrow {Link.pair v w} t (onWord v f) (onWord w f) Gives :=
  twin_consuming_reads (Reads.wordOf (by simp)) fun _ => twin_alloc rfl

theorem reads_kindOf : Reads K [Link.pair v w] (kindOf v) (kindOf w) := Reads.kindOf (by simp)

theorem twin_convertToString : Twin (heapBridge K) borrow {Link.pair v w} t (convertToString v)
    (convertToString w) Gives := by
  refine reads_kindOf.bind_twin (by simp) fun k => ?_
  have hconvert : Twin (heapBridge K) borrow {Link.pair v w} t
      (consuming v do newString (← textOf v)) (consuming w do newString (← textOf w)) Gives :=
    twin_consuming_reads (Reads.textOf (by simp)) fun _ => twin_alloc rfl
  cases k with
  | string => exact Twin.pure rfl
  | _ => exact hconvert

/-- An immortal value is dropped and null is given. -/
theorem twin_toNull (hv : ∀ a, v ≠ .ref a) :
    Twin (heapBridge K) borrow {Link.pair v v} t (pure .null) (pure .null) Gives := by
  refine .of_bond fun G ψ ψ' P h h' hb _ => ?_
  exact (hb.drop_immortal hv hv).leads_immortal nofun nofun

/-- Linked values are the same immortal value, or have a cell each. -/
theorem Linked.immortal_or_refs {P : Multiset Link} {h h' : Heap} (hl : Linked K P h h')
    (hm : Link.pair v w ∈ P) : (v = w ∧ ∀ a, v ≠ .ref a) ∨ ∃ a a', v = .ref a ∧ w = .ref a' := by
  obtain ⟨G, ψ, ψ', A, hb, -⟩ := hl
  exact hb.immortal_or_refs (hb.counterpart (Multiset.mem_add.2 (.inr hm)))

theorem kindOf_ref {h h₁ : Heap} {a : Address} {k : Kind} (hk : kindOf (.ref a) h = .ok k h₁) :
    k.isNullish = false ∧ k ≠ .undefined := by
  unfold kindOf Heap.kind? at hk
  cases hb : h.body? (.ref a) with
  | none => simp [hb] at hk
  | some b =>
    simp only [hb, Option.map_some, EStateM.Result.ok.injEq] at hk
    rw [← hk.1]
    cases b <;> exact ⟨rfl, nofun⟩

theorem Linked.exists_kindOf {P : Multiset Link} {h h' : Heap} (hl : Linked K P h h')
    (hm : Link.pair v w ∈ P) : ∃ k, kindOf v h = .ok k h ∧ kindOf w h' = .ok k h' := by
  obtain ⟨G, ψ, ψ', A, hb, -⟩ := hl
  have hread : Reads K [Link.pair v w] (kindOf v) (kindOf w) := reads_kindOf
  have hc : Counterpart ψ ψ' h h' v w := hb.counterpart (Multiset.mem_add.2 (.inr hm))
  obtain hk | ⟨hx, -⟩ := hread G ψ ψ' _ h h' hb (by simp [hm])
  · exact hk
  · obtain ⟨k, hk⟩ := hc.left.exists_kind
    simp [kindOf, hk] at hx

theorem twin_coerceS : Twin (heapBridge K) borrow {Link.pair v w} t (Unary.coerceS.run v)
    (Unary.coerceS.run w) Gives := by
  intro keep h h' hkeep hj
  have hm : Link.pair v w ∈ {Link.pair v w} + keep := by simp
  obtain ⟨rfl, hv⟩ | ⟨a, a', rfl, rfl⟩ := hj.immortal_or_refs hm
  · cases v with
    | ref a => exact absurd rfl (hv a)
    | undefined => exact twin_toNull hv keep h h' hkeep hj
    | null => exact twin_toNull hv keep h h' hkeep hj
    | bool b => exact twin_convertToString keep h h' hkeep hj
    | unbound => exact absurd rfl (hj.bound hm).1
  · obtain ⟨k, hk, hk'⟩ := hj.exists_kindOf hm
    have hnull := (kindOf_ref hk).1
    simp only [Unary.run]
    rw [bind_of_ok hk, bind_of_ok hk', if_neg (by simp [hnull]), if_neg (by simp [hnull])]
    exact twin_convertToString keep h h' hkeep hj

theorem twin_coerceO : Twin (heapBridge K) borrow {Link.pair v w} t (Unary.coerceO.run v)
    (Unary.coerceO.run w) Gives := by
  intro keep h h' hkeep hj
  have hm : Link.pair v w ∈ {Link.pair v w} + keep := by simp
  have hsame : Twin (heapBridge K) borrow {Link.pair v w} t (pure v) (pure w) Gives := Twin.pure rfl
  obtain ⟨rfl, hv⟩ | ⟨a, a', rfl, rfl⟩ := hj.immortal_or_refs hm
  · cases v with
    | ref a => exact absurd rfl (hv a)
    | undefined => exact twin_toNull hv keep h h' hkeep hj
    | unbound => exact absurd rfl (hj.bound hm).1
    | _ => exact hsame keep h h' hkeep hj
  · obtain ⟨k, hk, hk'⟩ := hj.exists_kindOf hm
    simp only [Unary.run]
    rw [bind_of_ok hk, bind_of_ok hk']
    have hsame := hsame keep h h' hkeep hj
    cases k with
    | undefined => exact absurd rfl (kindOf_ref hk).2
    | _ => exact hsame

theorem twin_convertI : Twin (heapBridge K) borrow {Link.pair v w} t (Unary.convertI.run v)
    (Unary.convertI.run w) Gives := by
  have hconvert : Twin (heapBridge K) borrow {Link.pair v w} t
      (consuming v do newInt (← wordOf v)) (consuming w do newInt (← wordOf w)) Gives :=
    twin_consuming_reads (Reads.wordOf (by simp)) fun _ => twin_alloc rfl
  refine Twin.reading fun G ψ ψ' P h h' hb _ hpre => ?_
  rcases hb.cases_body (hb.counterpart (hpre (Link.pair v w) (by simp))) with ⟨hv, hw⟩ |
    ⟨b, hv, hw, -⟩ | ⟨es, es', wr, k, k', hv, hw, -⟩ | ⟨xs, xs', hv, hw, -⟩
  · rw [hv, hw]
    exact hconvert
  · rw [hv, hw]
    cases b with
    | int n => exact Twin.pure rfl
    | _ => exact hconvert
  · rw [hv, hw]
    exact hconvert
  · rw [hv, hw]
    exact hconvert

theorem twin_convertU : Twin (heapBridge K) borrow {Link.pair v w} t (Unary.convertU.run v)
    (Unary.convertU.run w) Gives := by
  have hconvert : Twin (heapBridge K) borrow {Link.pair v w} t
      (consuming v do newUInt (← wordOf v).toUInt32) (consuming w do newUInt (← wordOf w).toUInt32)
      Gives := twin_consuming_reads (Reads.wordOf (by simp)) fun _ => twin_alloc rfl
  refine Twin.reading fun G ψ ψ' P h h' hb _ hpre => ?_
  rcases hb.cases_body (hb.counterpart (hpre (Link.pair v w) (by simp))) with ⟨hv, hw⟩ |
    ⟨b, hv, hw, -⟩ | ⟨es, es', wr, k, k', hv, hw, -⟩ | ⟨xs, xs', hv, hw, -⟩
  · rw [hv, hw]
    exact hconvert
  · rw [hv, hw]
    cases b with
    | uint n => exact Twin.pure rfl
    | _ => exact hconvert
  · rw [hv, hw]
    exact hconvert
  · rw [hv, hw]
    exact hconvert

theorem twin_unary (r : Unary) : Twin (heapBridge K) borrow {Link.pair v w} (r = .convertO) (r.run v)
    (r.run w) Gives := by
  cases r with
  | convertS => exact twin_convertToString
  | convertI => exact twin_convertI
  | convertU => exact twin_convertU
  | convertD =>
    refine reads_kindOf.bind_twin (by simp) fun k => ?_
    have hconvert : Twin (heapBridge K) borrow {Link.pair v w} (Unary.convertD = .convertO)
        (consuming v do newNumber (← numberOf v)) (consuming w do newNumber (← numberOf w)) Gives :=
      twin_consuming_reads (Reads.numberOf (by simp)) fun _ => twin_alloc rfl
    cases k with
    | number => exact Twin.pure rfl
    | _ => exact hconvert
  | convertB =>
    exact twin_consuming_reads (Reads.truthOf (by simp)) fun _ => twin_immortal nofun nofun
  | convertO =>
    refine reads_kindOf.bind_twin (by simp) fun k => ?_
    split
    · refine twin_release.bind fun _ _ P hP => ?_
      rw [hP]
      exact (twin_raise _ _).mono (fun _ hl => hl) (fun _ => rfl) fun _ _ _ hR => hR
    · exact Twin.pure rfl
  | coerceA => exact Twin.pure rfl
  | coerceS => exact twin_coerceS
  | coerceO => exact twin_coerceO
  | negate | increment | decrement => exact twin_onNumber _
  | negateI | incrementI | decrementI | bitNot => exact twin_onWord _
  | typeOf => exact twin_consuming_reads reads_kindOf fun _ => twin_alloc rfl
  | not => exact twin_consuming_reads (Reads.truthOf (by simp)) fun _ => twin_immortal nofun nofun

/-! ## Two operands -/

variable {α β : Type} {f : HeapM α} {g : HeapM β} {R : α → β → Multiset Link → Prop}

theorem twin_consuming₂ (h : Twin (heapBridge K) (Link.pair x y :: Link.pair v w :: borrow) 0 t f g R) :
    Twin (heapBridge K) borrow ({Link.pair v w} + {Link.pair x y}) t (consuming v (consuming x f))
      (consuming w (consuming y g)) R := by
  have hinner := twin_consuming h
  rw [add_zero] at hinner
  exact twin_consuming hinner

theorem twin_onNumbers (k : Double → Double → Double) :
    Twin (heapBridge K) borrow ({Link.pair v w} + {Link.pair x y}) t (onNumbers v x k) (onNumbers w y k)
      Gives := by
  have hv : Reads K [Link.pair x y, Link.pair v w] (numberOf v) (numberOf w) := Reads.numberOf (by simp)
  have hx : Reads K [Link.pair x y, Link.pair v w] (numberOf x) (numberOf y) := Reads.numberOf (by simp)
  refine twin_consuming₂ (hv.bind_twin (by simp) fun _ => hx.bind_twin (by simp) fun _ => ?_)
  exact twin_newNumeric _

theorem twin_onWords (k : Int32 → Int32 → Int32) :
    Twin (heapBridge K) borrow ({Link.pair v w} + {Link.pair x y}) t (onWords v x k) (onWords w y k)
      Gives := by
  have hv : Reads K [Link.pair x y, Link.pair v w] (wordOf v) (wordOf w) := Reads.wordOf (by simp)
  have hx : Reads K [Link.pair x y, Link.pair v w] (wordOf x) (wordOf y) := Reads.wordOf (by simp)
  refine twin_consuming₂ (hv.bind_twin (by simp) fun _ => hx.bind_twin (by simp) fun _ => ?_)
  exact twin_alloc rfl

theorem twin_comparing {k : Value → Value → HeapM Bool}
    (hk : Reads K [Link.pair x y, Link.pair v w] (k v x) (k w y)) :
    Twin (heapBridge K) borrow ({Link.pair v w} + {Link.pair x y}) t (comparing v x k) (comparing w y k)
      Same :=
  twin_consuming₂ (hk.twin (by simp))

theorem twin_shift (s : Shift) (n : Int32) :
    Twin (heapBridge K) borrow {Link.pair v w} t (s.run n v) (s.run n w) Gives := by
  refine twin_consuming_reads (Reads.wordOf (by simp)) fun m => ?_
  cases s <;> exact twin_alloc rfl

/-- Shifts of a value by another one. -/
theorem twin_shiftBy (s : Shift) : Twin (heapBridge K) borrow ({Link.pair v w} + {Link.pair x y}) t
    (consuming v do s.run (← wordOf v) x) (consuming w do s.run (← wordOf w) y) Gives := by
  have hv : Reads K [Link.pair v w] (wordOf v) (wordOf w) := Reads.wordOf (by simp)
  exact twin_consuming (hv.bind_twin (by simp) fun _ => twin_shift s _)

theorem twin_add : Twin (heapBridge K) borrow ({Link.pair v w} + {Link.pair x y}) t (Binary.add.run v x)
    (Binary.add.run w y) Gives := by
  have hv : Link.pair v w ∈ [Link.pair x y, Link.pair v w] := by simp
  have hx : Link.pair x y ∈ [Link.pair x y, Link.pair v w] := by simp
  refine twin_consuming₂ ?_
  refine (Reads.kindOf hv).bind_twin (by simp) fun k => ?_
  have htexts : Twin (heapBridge K) (Link.pair x y :: Link.pair v w :: borrow) 0 t
      (do
        let s ← textOf v
        let s' ← textOf x
        newString (s ++ s'))
      (do
        let s ← textOf w
        let s' ← textOf y
        newString (s ++ s')) Gives :=
    (Reads.textOf hv).bind_twin (by simp) fun _ => (Reads.textOf hx).bind_twin (by simp) fun _ =>
      twin_alloc rfl
  have hnumbers : Twin (heapBridge K) (Link.pair x y :: Link.pair v w :: borrow) 0 t
      (do newNumeric ((← numberOf v) + (← numberOf x)))
      (do newNumeric ((← numberOf w) + (← numberOf y))) Gives :=
    (Reads.numberOf hv).bind_twin (by simp) fun _ => (Reads.numberOf hx).bind_twin (by simp) fun _ =>
      twin_newNumeric _
  refine (Reads.kindOf hx).bind_twin (by simp) fun l => ?_
  split
  · exact htexts
  · exact hnumbers

/-- Whether a cell is the constructor of an object is the same in both heaps. -/
theorem Bond.maker_eq {G : Graph} {ψ ψ' : Naming} {P : Multiset Link} {h h' : Heap} {base : Nat}
    (hb : Bond base G ψ ψ' P h h') (hc : Counterpart ψ ψ' h h' v w)
    (hc₂ : Counterpart ψ ψ' h h' x y) {b : Body} (hx : h.body? x = some b)
    (hp : b.isPrimitive = false) {t t' : PropertyTable} {k k' : Address}
    (hv : h.body? v = some (.object t (some k))) (hw : h'.body? w = some (.object t' (some k')))
    (hk : ψ k = ψ' k') : Value.ref k = x ↔ Value.ref k' = y := by
  obtain ⟨a, c, rfl, hcell, -, hcb⟩ := hc₂.left.cell_of_body hx
  obtain ⟨-, hne⟩ | ⟨a₁, a', heq, rfl⟩ := hb.immortal_or_refs hc₂
  · exact absurd rfl (hne a)
  obtain ⟨n, hn, hn'⟩ := hb.exists_node hc₂ hx hp
  obtain ⟨c', hcell', -⟩ := hc₂.right
  obtain ⟨av, cv, rfl, hcv, -, hvb⟩ := hc.left.cell_of_body hv
  obtain ⟨aw, cw, rfl, hcw, -, hwb⟩ := hc.right.cell_of_body hw
  have hlt : k < h.cells.size := hb.left.accounted.makers av cv hcv k (by rw [hvb]; rfl)
  have hlt' : k' < h'.cells.size := hb.right.accounted.makers aw cw hcw k' (by rw [hwb]; rfl)
  have ha := (Array.getElem?_eq_some_iff.1 hcell).1
  have ha' := (Array.getElem?_eq_some_iff.1 hcell').1
  rw [Value.ref.injEq, Value.ref.injEq]
  constructor
  · rintro rfl
    exact hb.right.injective k' a' n hlt' ha' (hk ▸ hn) hn'
  · rintro rfl
    exact hb.left.injective k a n hlt ha (hk.trans hn') hn

theorem twin_instanceOf : Twin (heapBridge K) borrow ({Link.pair v w} + {Link.pair x y}) True
    (Binary.instanceOf.run v x) (Binary.instanceOf.run w y) Gives := by
  refine twin_consuming₂ (Twin.reading fun G ψ ψ' P h h' hb hborrow _ => ?_)
  have hc : Counterpart ψ ψ' h h' v w := hb.counterpart (hborrow _ (by simp))
  have hc₂ : Counterpart ψ ψ' h h' x y := hb.counterpart (hborrow _ (by simp))
  have hbool (p : Bool) : Twin (heapBridge K) (Link.pair x y :: Link.pair v w :: borrow) 0 True
      (pure (.bool p)) (pure (.bool p)) Gives := twin_immortal nofun nofun
  rcases hb.cases_body hc₂ with ⟨hx, hy⟩ | ⟨b, hx, hy, -⟩ | ⟨es, es', wr, k, k', hx, hy, -⟩ |
    ⟨xs, xs', hx, hy, -⟩
  · rw [hx, hy]
    exact twin_raise _ _
  · rw [hx, hy]
    cases b with
    | function name c =>
      rcases hb.cases_body hc with ⟨hv, hw⟩ | ⟨b, hv, hw, hs⟩ | ⟨es, es', wr, k, k', hv, hw, -, hk⟩ |
        ⟨xs, xs', hv, hw, -⟩
      · rw [hv, hw]
        exact hbool false
      · rw [hv, hw]
        cases b with
        | object table k => cases hs
        | _ => exact hbool false
      · rw [hv, hw]
        cases k with
        | none =>
          cases k' with
          | none => exact hbool false
          | some k' => cases hk
        | some k =>
          cases k' with
          | none => cases hk
          | some k' =>
            simp only [hb.maker_eq hc hc₂ hx rfl hv hw (Option.some.inj hk)]
            exact hbool _
      · rw [hv, hw]
        exact hbool false
    | _ => exact twin_raise _ _
  · rw [hx, hy]
    exact twin_raise _ _
  · rw [hx, hy]
    exact twin_raise _ _

theorem twin_binary (r : Binary) : Twin (heapBridge K) borrow ({Link.pair v w} + {Link.pair x y})
    (r = .instanceOf) (r.run v x) (r.run w y) Gives := by
  have hv : Link.pair v w ∈ [Link.pair x y, Link.pair v w] := by simp
  have hx : Link.pair x y ∈ [Link.pair x y, Link.pair v w] := by simp
  have hv' : Link.pair v w ∈ [Link.pair v w, Link.pair x y] := by simp
  have hx' : Link.pair x y ∈ [Link.pair v w, Link.pair x y] := by simp
  have hbool {t : Prop} {k l : HeapM Bool} {pre : Multiset Link}
      (hkl : Twin (heapBridge K) borrow pre t k l Same) :
      Twin (heapBridge K) borrow pre t (Value.bool <$> k) (Value.bool <$> l) Gives := by
    rw [map_eq_pure_bind, map_eq_pure_bind]
    refine hkl.bind fun a b P hab => ?_
    obtain ⟨rfl, rfl⟩ := hab
    exact twin_immortal nofun nofun
  cases r with
  | add => exact twin_add
  | addI | subtractI | multiplyI | bitAnd | bitOr | bitXor => exact twin_onWords _
  | subtract | multiply | divide | modulo => exact twin_onNumbers _
  | lShift | rShift | uRShift => exact twin_shiftBy _
  | equals => exact hbool (twin_comparing (Reads.looseEquals hv hx))
  | strictEquals => exact hbool (twin_comparing (Reads.strictEquals hv hx))
  | lessThan => exact hbool (twin_comparing (Reads.lessThan hv hx))
  | lessEquals =>
    rw [add_comm]
    exact hbool (twin_comparing (Reads.greaterOrEqual hx' hv'))
  | greaterThan =>
    rw [add_comm]
    exact hbool (twin_comparing (Reads.lessThan hx' hv'))
  | greaterEquals => exact hbool (twin_comparing (Reads.greaterOrEqual hv hx))
  | inObject =>
    refine twin_consuming₂ ((Reads.textOf hv).bind_twin (by simp) fun name => ?_)
    refine Twin.reading fun G ψ ψ' P h h' hb hborrow _ => ?_
    rw [hb.has_eq (hb.counterpart (hborrow (Link.pair x y) (by simp)))]
    exact twin_immortal nofun nofun
  | instanceOf => exact twin_instanceOf.mono (fun _ hl => hl) (fun _ => rfl) fun _ _ _ hR => hR
  | nextName =>
    exact twin_consuming₂ ((Reads.wordOf hx).bind_twin (by simp) fun _ => twin_nameAt (by simp) _)
  | nextValue =>
    exact twin_consuming₂ ((Reads.wordOf hx).bind_twin (by simp) fun _ => twin_valueAt (by simp) _)

theorem twin_test (r : Test) :
    Twin (heapBridge K) borrow {Link.pair v w} t (r.run v) (r.run w) Same := by
  have hread : Reads K [Link.pair v w] (truthOf v) (truthOf w) := Reads.truthOf (by simp)
  unfold Test.run
  rw [← add_zero {Link.pair v w}]
  refine twin_consuming ?_
  cases r with
  | ifTrue => exact hread.twin (by simp)
  | ifFalse => exact (hread.bind fun _ => Reads.pure _).twin (by simp)

theorem twin_compare (c : Comparison) : Twin (heapBridge K) borrow ({Link.pair v w} + {Link.pair x y}) t
    (c.run v x) (c.run w y) Same := by
  have hv : Link.pair v w ∈ [Link.pair x y, Link.pair v w] := by simp
  have hx : Link.pair x y ∈ [Link.pair x y, Link.pair v w] := by simp
  have hv' : Link.pair v w ∈ [Link.pair v w, Link.pair x y] := by simp
  have hx' : Link.pair x y ∈ [Link.pair v w, Link.pair x y] := by simp
  have hnot {k l : HeapM Bool} {pre : Multiset Link} (hkl : Twin (heapBridge K) borrow pre t k l Same) :
      Twin (heapBridge K) borrow pre t ((!·) <$> k) ((!·) <$> l) Same :=
    hkl.map fun a b P hab => ⟨congrArg _ hab.1, hab.2⟩
  cases c with
  | ifEq => exact twin_comparing (Reads.looseEquals hv hx)
  | ifNe => exact hnot (twin_comparing (Reads.looseEquals hv hx))
  | ifLT => exact twin_comparing (Reads.lessThan hv hx)
  | ifNLT => exact twin_comparing (Reads.notLessThan hv hx)
  | ifLE =>
    rw [add_comm]
    exact twin_comparing (Reads.greaterOrEqual hx' hv')
  | ifNLE =>
    rw [add_comm]
    exact hnot (twin_comparing (Reads.greaterOrEqual hx' hv'))
  | ifGT =>
    rw [add_comm]
    exact twin_comparing (Reads.lessThan hx' hv')
  | ifNGT =>
    rw [add_comm]
    exact twin_comparing (Reads.notLessThan hx' hv')
  | ifGE => exact twin_comparing (Reads.greaterOrEqual hv hx)
  | ifNGE => exact hnot (twin_comparing (Reads.greaterOrEqual hv hx))
  | ifStrictEq => exact twin_comparing (Reads.strictEquals hv hx)
  | ifStrictNe => exact hnot (twin_comparing (Reads.strictEquals hv hx))

end MethodJit
