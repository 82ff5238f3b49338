import MethodJit.Proofs.Calls
import MethodJit.Proofs.Enumeration

/-!
# Routines in lockstep

Every routine on frames that an instruction runs does the same in two invocations that are joined.
-/

namespace MethodJit

variable {σ α β : Type} {K : Origin} {s : Setting} {I : σ → Prop} {P Q pre : Multiset Link}
  {G borrow : List Link} {t : Prop} {v w : Value} {R : α → β → Multiset Link → Prop}
  {host : Host σ} {cs : List (Value × Value)}

theorem onHeap_bind (x : HeapM α) (f : α → HeapM β) :
    (onHeap (x >>= f) : Act σ β) = onHeap x >>= fun a => onHeap (f a) := by
  funext mc
  obtain ⟨h, fr, s⟩ := mc
  simp only [onHeap, bind, EStateM.bind]
  cases x h <;> rfl

theorem onHeap_pure_bind (a : α) (f : α → Act σ β) : onHeap (pure a) >>= f = f a := rfl

theorem pushShared_eq (v : Value) : (pushShared v : Act σ Unit) = onHeap (shared v) >>= push := by
  rw [shared, onHeap_bind, bind_assoc]
  rfl

/-- Names and values that alternate are stored in the same way. -/
theorem twin_storePairs {o o' : Value} (hl : Link.pair o o' ∈ borrow) {n : Nat} (hn : cs.length = 2 * n) :
    Twin (heapBridge K) borrow (pairLinks cs) t (storePairs o (cs.map (·.1))) (storePairs o' (cs.map (·.2)))
      Done := by
  induction n generalizing cs with
  | zero =>
    obtain rfl := List.length_eq_zero_iff.1 hn
    exact Twin.pure rfl
  | succ n ih =>
    obtain ⟨p, cs, rfl⟩ := List.exists_cons_of_length_eq_add_one hn
    obtain ⟨q, cs, rfl⟩ := List.exists_cons_of_length_eq_add_one (Nat.succ.inj hn)
    have hreads : Reads K [Link.pair p.1 p.2] (textOf p.1) (textOf p.2) := Reads.textOf (by simp)
    have htext : Twin (heapBridge K) ([Link.pair p.1 p.2] ++ borrow) 0 False (textOf p.1) (textOf p.2) Same :=
      hreads.twin (by simp)
    have hfirst : pairLinks (p :: q :: cs) = ↑[Link.pair p.1 p.2] + pairLinks (q :: cs) := rfl
    rw [hfirst]
    refine Twin.bind_lend [Link.pair p.1 p.2] htext fun name _ P hP => ?_
    obtain ⟨rfl, rfl⟩ := hP
    have hlinks : 0 + (↑[Link.pair p.1 p.2] + pairLinks (q :: cs)) =
        {Link.pair q.1 q.2} + ({Link.pair p.1 p.2} + pairLinks cs) := by
      rw [zero_add, add_left_comm]
      rfl
    rw [hlinks]
    refine (twin_setProperty hl name).bind_rest fun _ _ P hP => ?_
    rw [hP, zero_add]
    refine twin_release.bind_rest fun _ _ P hP => ?_
    rw [hP, zero_add]
    exact ih (by simpa using Nat.succ.inj (Nat.succ.inj hn))

/-- Twice a number is never odd, even if it does not fit. -/
theorem exists_toNatClampNeg_two_mul (i : Int32) : ∃ n, (2 * i).toNatClampNeg = 2 * n := by
  have hmul : (2 * i).toInt = (2 * i.toInt).bmod (2 ^ 32) := by rw [Int32.toInt_mul]; rfl
  rw [Int32.toNatClampNeg, hmul, Int.bmod]
  refine ⟨((2 * i.toInt).bmod (2 ^ 32)).toNat / 2, ?_⟩
  rw [Int.bmod]
  split <;> omega

theorem isNullish_of_kind {h : Heap} {k : Kind} (hk : h.kind? v = some k) (hnull : k.isNullish = true) :
    v.isNullish = true := by
  cases v with
  | ref a =>
    obtain ⟨b, -, rfl⟩ := Option.map_eq_some_iff.1 hk
    cases b <;> cases hnull
  | bool b =>
    cases hk
    cases hnull
  | unbound => cases hk
  | _ => rfl

/-- The kinds of two values; only what needs no cell is undefined or null. -/
theorem twin_kindOf (hl : Link.pair v w ∈ borrow) :
    Twin (heapBridge K) borrow 0 t (kindOf v) (kindOf w) fun k k' P =>
      k = k' ∧ P = 0 ∧ (k.isNullish = true → v.isNullish = true ∧ w.isNullish = true) := by
  refine .of_bond fun G ψ ψ' P h h' hb hborrow => ?_
  rw [zero_add] at hb
  have hc : Counterpart ψ ψ' h h' v w := hb.counterpart (hborrow _ hl)
  obtain ⟨k, hk⟩ := hc.left.exists_kind
  have hk' : h'.kind? w = some k := by rw [← hb.kind?_eq hc, hk]
  refine .inl ⟨k, k, h, h', by simp only [kindOf, hk], by simp only [kindOf, hk'], rfl, rfl, 0, ⟨rfl, rfl, ?_⟩,
    G, ψ, ψ', by rwa [zero_add]⟩
  exact fun hnull => ⟨isNullish_of_kind hk hnull, isNullish_of_kind hk' hnull⟩

theorem ne_ref_of_isNullish (hv : v.isNullish = true) (a : Address) : v ≠ .ref a := by
  rintro rfl
  cases hv

/-- Undefined and null need not be given up. -/
theorem twin_drop_nullish {x : HeapM α} {y : HeapM β} (hv : v.isNullish = true) (hw : w.isNullish = true)
    (h : Twin (heapBridge K) borrow pre t x y R) :
    Twin (heapBridge K) borrow ({Link.pair v w} + pre) t x y R := by
  intro keep h₁ h₁' hkeep hj
  obtain ⟨G, ψ, ψ', A, hb, hA⟩ := hj
  rw [add_assoc, add_left_comm] at hb
  exact h keep h₁ h₁' hkeep
    ⟨G, ψ, ψ', A, hb.drop_immortal (ne_ref_of_isNullish hv) (ne_ref_of_isNullish hw), hA⟩

namespace Machine

theorem twin_pushImmortal (hv : ∀ a, v ≠ .ref a) (hv' : v ≠ .unbound) :
    Twin (machineBridge K s I) borrow 0 t (push v) (push v) Done := by
  have himmortal : Twin (machineBridge K s I) borrow 0 t (onHeap (pure v)) (onHeap (pure v)) Gives :=
    twin_onHeap (twin_immortal hv hv')
  refine himmortal.bind (f := push) (g := push) fun v w P hP => ?_
  rw [hP]
  exact twin_push v w

/-- A new value is pushed. -/
theorem twin_bind_push {x y : Act σ Value} (h : Twin (machineBridge K s I) borrow pre t x y Gives) :
    Twin (machineBridge K s I) borrow pre t (x >>= push) (y >>= push) Done := by
  refine h.bind fun v w P hP => ?_
  rw [hP]
  exact twin_push v w

/-- A new reference to the scope at an index. -/
def shareScope (i : Int32) (scope : List Value) : HeapM Value :=
  if (scope.length : Int) ≤ i.toInt then
    let n := i.toInt
    raise "VerifyError" s!"scope index {n} out of range"
  else if i < 0 then throw .bounds
  else match scope[i.toNatClampNeg]? with
    | some v => shared v
    | none => throw .bounds

theorem getScopeObject_eq (host : Host σ) (i : Int32) : IndexedAction.getScopeObject.run host i =
    (do onHeap (shareScope i (← MethodJit.frame).scope.toList)) >>= push := by
  rw [bind_assoc]
  simp only [IndexedAction.run, shareScope, Array.length_toList]
  congr 1
  funext f
  split
  · rfl
  · unfold entryAt
    rw [Array.getElem?_toList]
    split
    · rfl
    · cases f.scope[i.toNatClampNeg]? with
      | none => rfl
      | some v => exact pushShared_eq v

theorem twin_shareScope (i : Int32) : Twin (machineBridge K s I) borrow 0 True
    (do onHeap (shareScope i (← MethodJit.frame).scope.toList))
    (do onHeap (shareScope i (← MethodJit.frame).scope.toList)) Gives := by
  have hread (mc : Machine σ) (V : View) (hf : mc.frame.Shows V) :
      (MethodJit.frame >>= fun f => onHeap (shareScope i f.scope.toList)) mc =
        onHeap (shareScope i (V.lane mc.heap).scope) mc := by
    rw [bind_of_ok (rfl : MethodJit.frame mc = .ok mc.frame mc), hf.scope]
    rfl
  refine twin_reading (z := fun ℓ => shareScope i ℓ.scope) (u := fun ℓ => shareScope i ℓ.scope) hread hread
    fun n ℓ ℓ' Z M S hp => ?_
  rw [hp.scope_left, hp.scope_right]
  unfold shareScope
  rw [List.length_map, List.length_map]
  split
  · exact ⟨[], fun _ hl => (List.not_mem_nil hl).elim, twin_raise _ _⟩
  · split
    · exact ⟨[], fun _ hl => (List.not_mem_nil hl).elim, Twin.bounds⟩
    · rw [List.getElem?_map, List.getElem?_map]
      cases hS : S[i.toNatClampNeg]? with
      | none => exact ⟨[], fun _ hl => (List.not_mem_nil hl).elim, Twin.bounds⟩
      | some p =>
        refine ⟨[Link.pair p.1 p.2], fun l hl => ?_, twin_shared (by simp)⟩
        obtain rfl := List.mem_singleton.1 hl
        exact Multiset.mem_add.2 (.inr (Multiset.mem_coe.2 (List.mem_map_of_mem (List.mem_of_getElem? hS))))

/-- A new reference to the scope that was found. -/
def shareFound (name : String) : Option Value → HeapM Value
  | some x => shared x
  | none => raise "ReferenceError" (name ++ " is not defined")

/-- The property of the scope that was found. -/
def getFound (name : String) : Option Value → HeapM Value
  | some x => getProperty x name
  | none => raise "ReferenceError" (name ++ " is not defined")

theorem findPropStrict_eq (name : String) : (do pushShared (← findScope name) : Act σ Unit) =
    (do onHeap (shareFound name (← findScope? name))) >>= push := by
  simp only [findScope, bind_assoc]
  congr 1
  funext o
  cases o with
  | none => rfl
  | some x => exact pushShared_eq x

theorem getLex_eq (name : String) : (do
      let x ← findScope name
      push (← onHeap (getProperty x name)) : Act σ Unit) =
    (do onHeap (getFound name (← findScope? name))) >>= push := by
  simp only [findScope, bind_assoc]
  congr 1
  funext o
  cases o <;> rfl

/-- What was found or else the global object is shared. -/
theorem findProperty_eq (name : String) : (do
      let found ← findScope? name
      pushShared (found.getD (← MethodJit.frame).global) : Act σ Unit) =
    MethodJit.frame >>= fun f => (do onHeap (shared ((← findScope? name).getD f.global))) >>= push := by
  simp only [pushShared_eq, bind_assoc]
  rfl

theorem twin_findPropStrict (hg : Link.pair s.global s.global ∈ borrow) (i : Int32) :
    Twin (machineBridge K s I) borrow 0 True (IndexedAction.findPropStrict.run host i)
      (IndexedAction.findPropStrict.run host i) Done := by
  refine (twin_nameConstant i).bind fun name _ P hP => ?_
  obtain ⟨rfl, rfl⟩ := hP
  rw [findPropStrict_eq]
  refine twin_bind_push (twin_finding name hg (fun _ => twin_raise _ _) fun v w _ hl => ?_)
  exact twin_shared hl

theorem twin_findProperty (hg : Link.pair s.global s.global ∈ borrow) (i : Int32) :
    Twin (machineBridge K s I) borrow 0 True (IndexedAction.findProperty.run host i)
      (IndexedAction.findProperty.run host i) Done := by
  refine (twin_nameConstant i).bind fun name _ P hP => ?_
  obtain ⟨rfl, rfl⟩ := hP
  rw [findProperty_eq]
  refine twin_frame fun f f' _ _ hf hf' => ?_
  rw [hf, hf']
  refine twin_bind_push (twin_finding (k := fun o => shared (o.getD s.global))
    (g := fun o => shared (o.getD s.global)) name hg (fun more => ?_) fun v w _ hl => ?_)
  · exact twin_shared (List.mem_append.2 (.inr hg))
  · exact twin_shared hl

theorem twin_getLex (hg : Link.pair s.global s.global ∈ borrow) (i : Int32) :
    Twin (machineBridge K s I) borrow 0 True (IndexedAction.getLex.run host i)
      (IndexedAction.getLex.run host i) Done := by
  refine (twin_nameConstant i).bind fun name _ P hP => ?_
  obtain ⟨rfl, rfl⟩ := hP
  rw [getLex_eq]
  refine twin_bind_push (twin_finding name hg (fun _ => twin_raise _ _) fun v w _ hl => ?_)
  exact twin_getProperty hl name

/-- The topmost operands, which are borrowed meanwhile. -/
theorem twin_consumingTop {x : Value → Act σ α} {y : Value → Act σ β}
    (h : ∀ v w, Twin (machineBridge K s I) (Link.pair v w :: borrow) 0 t (x v) (y w) R) :
    Twin (machineBridge K s I) borrow 0 t (do let v ← pop; consumingAct v (x v))
      (do let w ← pop; consumingAct w (y w)) R := by
  refine twin_pop.bind fun v w P hP => ?_
  rw [hP, ← add_zero {Link.pair v w}]
  exact twin_consumingAct (h v w)

/-- Actions after the reading of a name. -/
theorem twin_named {i : Int32} {x : String → Act σ α} {y : String → Act σ β}
    (h : ∀ name, Twin (machineBridge K s I) borrow pre t (x name) (y name) R) :
    Twin (machineBridge K s I) borrow pre t (nameConstant i >>= x) (nameConstant i >>= y) R := by
  rw [← zero_add pre]
  refine (twin_nameConstant i).bind_rest fun name _ P hP => ?_
  obtain ⟨rfl, rfl⟩ := hP
  rw [zero_add]
  exact h name

theorem twin_jump : Twin (machineBridge K s I) borrow 0 t (IndexedAction.jump.run host i)
    (IndexedAction.jump.run host j) Done := by
  intro keep mc mc' _ hj
  obtain ⟨hhost, hI, V, V', n, hf, hf', Z, M, S, hp, hZ, hl⟩ := hj
  have hset {V : View} (hV : V.toSetting = { s with jumps := n }) :
      { V.toSetting with jumps := V.jumps + 1 } = { s with jumps := n + 1 } := by rw [hV]
  refine ⟨0, rfl, hhost, hI, { V with jumps := V.jumps + 1 }, { V' with jumps := V'.jumps + 1 }, n + 1, ?_, ?_,
    Z, M, S, ?_, hZ, ?_⟩
  · exact { hf with jumps := congrArg (· + 1) hf.jumps }
  · exact { hf' with jumps := congrArg (· + 1) hf'.jumps }
  · exact { hp with setting_left := hset hp.setting_left, setting_right := hset hp.setting_right }
  · exact hl

/-- The routines on frames that take a number do the same in both invocations. -/
theorem twin_indexed (hhost : Faithful K I G host) (hG : ∀ l ∈ G, l ∈ borrow)
    (hg : Link.pair s.global s.global ∈ borrow) (a : IndexedAction) (i : Int32) :
    Twin (machineBridge K s I) borrow 0 True (a.run host i) (a.run host i) Done := by
  cases a with
  | getScopeObject =>
    rw [getScopeObject_eq]
    exact twin_bind_push (twin_shareScope i)
  | findPropStrict => exact twin_findPropStrict hg i
  | findProperty => exact twin_findProperty hg i
  | getLex => exact twin_getLex hg i
  | getProperty =>
    refine twin_consumingTop fun v w => twin_named fun name => ?_
    exact twin_bind_push (twin_onHeap (twin_getProperty List.mem_cons_self name))
  | setProperty | initProperty =>
    refine twin_pop.bind fun x y P hP => ?_
    rw [hP, ← zero_add {Link.pair x y}]
    refine twin_pop.bind_rest fun v w P hP => ?_
    rw [hP]
    refine twin_consumingAct (twin_named fun name => ?_)
    exact twin_onHeap (twin_setProperty List.mem_cons_self name)
  | deleteProperty =>
    refine twin_consumingTop fun v w => twin_named fun name => ?_
    refine (twin_onHeap (twin_deleteProperty List.mem_cons_self name)).bind fun b _ P hP => ?_
    obtain ⟨rfl, rfl⟩ := hP
    exact twin_pushImmortal (by simp) (by simp)
  | call =>
    refine (twin_popMany i).bind fun _ _ P hP => ?_
    obtain ⟨⟨cs, rfl, rfl, rfl⟩, -⟩ := hP
    rw [← zero_add (pairLinks cs)]
    refine twin_pop.bind_rest fun r r' P hP => ?_
    rw [hP, ← zero_add ({Link.pair r r'} + pairLinks cs)]
    refine twin_pop.bind_rest fun fn fn' P hP => ?_
    rw [hP]
    exact twin_bind_push (twin_callValue hhost hG fn fn' r r' cs)
  | construct =>
    refine (twin_popMany i).bind fun _ _ P hP => ?_
    obtain ⟨⟨cs, rfl, rfl, rfl⟩, -⟩ := hP
    rw [← zero_add (pairLinks cs)]
    refine twin_pop.bind_rest fun fn fn' P hP => ?_
    rw [hP]
    exact twin_bind_push (twin_constructValue hhost hG fn fn' cs)
  | newObject =>
    refine (twin_popMany (2 * i)).bind fun _ _ P hP => ?_
    obtain ⟨⟨cs, rfl, rfl, rfl⟩, hlen⟩ := hP
    obtain ⟨n, hn⟩ := exists_toNatClampNeg_two_mul i
    rw [List.length_map, hn] at hlen
    rw [← zero_add (pairLinks cs)]
    refine (twin_onHeap twin_newObject_none).bind_rest fun o o' P hP => ?_
    have hstore : Twin (machineBridge K s I) ([Link.pair o o'] ++ borrow) (pairLinks cs) False
        (onHeap (storePairs o (cs.map (·.1)))) (onHeap (storePairs o' (cs.map (·.2)))) Done :=
      twin_onHeap (twin_storePairs (by simp) hlen)
    rw [hP, add_comm]
    refine (hstore.lend [Link.pair o o']).bind fun _ _ P hP => ?_
    obtain ⟨_, rfl, rfl⟩ := hP
    rw [zero_add]
    exact twin_push o o'
  | newArray =>
    refine (twin_popMany i).bind fun _ _ P hP => ?_
    obtain ⟨⟨cs, rfl, rfl, rfl⟩, -⟩ := hP
    exact twin_bind_push (twin_onHeap twin_newArray)
  | jump => exact twin_jump

/-- Calls by name do the same in both invocations. -/
theorem twin_callNamed (hhost : Faithful K I G host) (hG : ∀ l ∈ G, l ∈ borrow) (i argc : Int32)
    (lexical : Bool) :
    Twin (machineBridge K s I) borrow 0 True (callNamed host i argc lexical) (callNamed host i argc lexical)
      Gives := by
  refine (twin_popMany argc).bind fun _ _ P hP => ?_
  obtain ⟨⟨cs, rfl, rfl, rfl⟩, -⟩ := hP
  rw [← zero_add (pairLinks cs)]
  refine twin_pop.bind_rest fun x y P hP => ?_
  rw [hP]
  refine twin_named fun name => ?_
  have hget : Twin (machineBridge K s I) ([Link.pair x y] ++ borrow) 0 False (onHeap (getProperty x name))
      (onHeap (getProperty y name)) Gives := twin_onHeap (twin_getProperty (by simp) name)
  refine Twin.bind_lend [Link.pair x y] hget fun fn fn' P hP => ?_
  rw [hP]
  cases lexical with
  | true =>
    rw [add_left_comm]
    refine (twin_onHeap twin_release).bind_rest fun _ _ P hP => ?_
    rw [hP, zero_add, ← zero_add ({Link.pair fn fn'} + pairLinks cs)]
    have hnull : Twin (machineBridge K s I) borrow 0 False (onHeap (pure .null)) (onHeap (pure .null)) Gives :=
      twin_onHeap (twin_immortal (by simp) (by simp))
    have hcall : Twin (machineBridge K s I) borrow (0 + ({Link.pair fn fn'} + pairLinks cs)) True
        (onHeap (pure .null) >>= fun r => callValue host fn r (cs.map (·.1)))
        (onHeap (pure .null) >>= fun r => callValue host fn' r (cs.map (·.2))) Gives := by
      refine hnull.bind_rest fun r r' P hP => ?_
      rw [hP, add_left_comm]
      exact twin_callValue hhost hG fn fn' r r' cs
    rwa [onHeap_pure_bind, onHeap_pure_bind] at hcall
  | false => exact twin_callValue hhost hG fn fn' x y cs

/-- The routines on frames that take two numbers do the same in both invocations. -/
theorem twin_paired (hhost : Faithful K I G host) (hG : ∀ l ∈ G, l ∈ borrow) {a : PairAction}
    (ha : a ≠ .hasNext2) (i j : Int32) :
    Twin (machineBridge K s I) borrow 0 True (a.run host i j) (a.run host i j) Done := by
  cases a with
  | callProperty => exact twin_bind_push (twin_callNamed hhost hG i j false)
  | callPropLex => exact twin_bind_push (twin_callNamed hhost hG i j true)
  | callPropVoid =>
    refine (twin_callNamed hhost hG i j false).bind fun v w P hP => ?_
    rw [hP]
    exact twin_onHeap twin_release
  | constructProp =>
    refine (twin_popMany j).bind fun _ _ P hP => ?_
    obtain ⟨⟨cs, rfl, rfl, rfl⟩, -⟩ := hP
    rw [← zero_add (pairLinks cs)]
    refine twin_pop.bind_rest fun x y P hP => ?_
    rw [hP]
    refine twin_consumingAct (twin_named fun name => ?_)
    rw [← zero_add (pairLinks cs)]
    refine (twin_onHeap (twin_getProperty List.mem_cons_self name)).bind_rest fun fn fn' P hP => ?_
    rw [hP]
    exact twin_bind_push
      (twin_constructValue hhost (fun l hl => List.mem_cons_of_mem _ (hG l hl)) fn fn' cs)
  | hasNext2 => exact absurd rfl ha

theorem popScope_eq : (FrameAction.popScope.run : Act σ Unit) = leaveScope >>= fun o =>
    match o with
    | none => onHeap (raise "VerifyError" "scope stack underflow")
    | some x => onHeap (release x) := by
  simp only [FrameAction.run, leaveScope, bind_assoc]
  congr 1
  funext f
  cases f.scope.back? <;> rfl

theorem twin_popScope : Twin (machineBridge K s I) borrow 0 True FrameAction.popScope.run
    FrameAction.popScope.run Done := by
  rw [popScope_eq]
  refine twin_leaveScope.bind fun o o' P hP => ?_
  rcases hP with ⟨rfl, rfl, rfl⟩ | ⟨v, w, rfl, rfl, rfl⟩
  · exact twin_onHeap (twin_raise _ _)
  · exact twin_onHeap twin_release

theorem twin_pushWith : Twin (machineBridge K s I) borrow 0 True FrameAction.pushWith.run
    FrameAction.pushWith.run Done := by
  refine twin_pop.bind fun v w P hP => ?_
  have hkind : Twin (machineBridge K s I) ([Link.pair v w] ++ borrow) 0 False (onHeap (kindOf v))
      (onHeap (kindOf w)) fun k k' P =>
        k = k' ∧ P = 0 ∧ (k.isNullish = true → v.isNullish = true ∧ w.isNullish = true) :=
    twin_onHeap (twin_kindOf (by simp))
  rw [hP, ← add_zero {Link.pair v w}]
  refine Twin.bind_lend [Link.pair v w] hkind fun k _ P hP => ?_
  obtain ⟨rfl, rfl, himmortal⟩ := hP
  rw [zero_add]
  by_cases hk : k.isNullish = true
  · obtain ⟨hv, hw⟩ := himmortal hk
    rw [if_pos hk, if_pos hk]
    exact twin_onHeap (twin_drop_nullish hv hw (twin_raise _ _))
  · rw [if_neg hk, if_neg hk, add_zero]
    exact twin_enterScope v w

/-- The routines on frames that take no number, but for the binding of the arguments. -/
theorem twin_framed {a : FrameAction} (ha : a ≠ .bindArguments) :
    Twin (machineBridge K s I) borrow 0 True a.run a.run Done := by
  cases a with
  | pushScope =>
    refine twin_pop.bind fun v w P hP => ?_
    rw [hP]
    exact twin_enterScope v w
  | popScope => exact twin_popScope
  | pushWith => exact twin_pushWith
  | bindArguments => exact absurd rfl ha

end Machine

/-! ## Enumerations -/

namespace Lane

/-- Replaces a local and gives up its value, which must be bound. -/
def replace (i : Nat) (v : Value) : LaneM Unit := fun ℓ =>
  match ℓ.locals[i]? with
  | none => .error .bounds ℓ
  | some l => onHeap (release l.value) { ℓ with locals := ℓ.locals.set i ⟨v, l.displaced⟩ }

/-- The position after the one that a local holds, in the enumeration of the object in another. -/
def nextPosition (i j : Nat) : LaneM Int :=
  reading fun ℓ =>
    match ℓ.locals[i]?, ℓ.locals[j]? with
    | some x, some old => do pure ((← get).positionAfter x.value old.value)
    | _, _ => throw .bounds

/-- Moves an enumeration on. -/
def hasNext2 (i j : Nat) : LaneM Unit := do
  let next ← nextPosition i j
  replace j (← onHeap (newInt (.ofInt next)))
  if next = 0 then replace i (← onHeap (pure .null))
  push .eager (.object (← onHeap (pure (.bool (next ≠ 0)))))

variable {ℓ ℓ' : Lane} {Z : List (Item × Item)} {M : List (Local × Local)} {S : List (Value × Value)}

/-- A bound local is replaced as any local is set. -/
theorem replace_eq {i : Nat} {v : Value} {l : Local} (hl : ℓ.locals[i]? = some l)
    (hbound : l.value ≠ .unbound) : replace i v ℓ = setLocal .now i v ℓ := by
  have hrelease : release l.value = releaseBound l.value := (if_pos (isBound_of_ne hbound)).symm
  simp [replace, setLocal, hl, hrelease]

theorem twin_replace (i : Nat) {v w : Value} :
    Twin (laneBridge K s) borrow {Link.pair v w} t (replace i v) (replace i w) Done := by
  intro keep ℓ ℓ' hkeep hj
  have hown : ℓ.Owns (lefts ({Link.pair v w} + keep)) := hj.owns_left
  obtain ⟨Z, M, S, hp, hZ, hl⟩ := id hj
  cases hi : ℓ.locals[i]? with
  | none =>
    have hleft : replace i v ℓ = .error .bounds ℓ := by simp only [replace, hi]
    rw [hleft]
    refine Agree.of_bounds ?_
    rw [lefts_add, add_comm] at hown
    exact hown.mono
  | some l =>
    obtain ⟨A, B, l', rfl, rfl, hi'⟩ := hp.exists_local hi
    have hfit : l.Fits l' := hp.fits (l, l') (by simp)
    by_cases hbound : l.value = .unbound
    · have hleft : replace A.length v ℓ =
          .error .bounds { ℓ with locals := ℓ.locals.set A.length ⟨v, l.displaced⟩ } := by
        have hrelease : release .unbound ℓ.heap = .error .bounds ℓ.heap := by simp [release, Heap.releaseAll]
        simp only [replace, hi, hbound, onHeap, reading, hrelease]
      rw [hleft]
      obtain ⟨hd, hd'⟩ := hfit.stored hbound
      have hbounds := hl.bound (v := v) (w := w) (by simp)
      have hnew : Local.Fits ⟨v, l.displaced⟩ ⟨w, l'.displaced⟩ :=
        ⟨⟨fun hu => absurd hu hbounds.1, fun hu => absurd hu hbounds.2⟩, fun hu => absurd hu hbounds.1⟩
      have hstored := hp.set hnew ℓ.heap ℓ'.heap
      refine Agree.of_bounds (Joined.owns_left (K := K) ⟨Z, _, S, hstored, hZ, ?_⟩)
      rw [laneLinks_insert, Local.links, if_pos hbound, Local.strays, Local.strays, hd, hd'] at hl
      rw [laneLinks_insert, Local.links, if_neg hbounds.1, Local.strays, Local.strays, hd, hd']
      convert hl using 1
      simp only [Option.map_none, Option.getD_none, Multiset.map_zero]
      abel
    · rw [replace_eq hi hbound, replace_eq hi' fun hu => hbound (hfit.bound.2 hu)]
      exact twin_setLocal .now .now _ keep ℓ ℓ' hkeep hj

theorem positionAfter_eq {base : Nat} {G : Graph} {ψ ψ' : Naming} {h h' : Heap} {x x' old old' : Value}
    (hb : Bond base G ψ ψ' P h h') (hx : x = .unbound ∧ x' = .unbound ∨ Link.pair x x' ∈ P)
    (hold : old = .unbound ∧ old' = .unbound ∨ Link.pair old old' ∈ P) :
    h.positionAfter x old = h'.positionAfter x' old' := by
  have hsize : h.enumSize x = h'.enumSize x' := by
    rcases hx with ⟨rfl, rfl⟩ | hx
    · rfl
    · exact hb.enumSize_eq (hb.counterpart hx)
  have hword : h.toInt32 old = h'.toInt32 old' := by
    rcases hold with ⟨rfl, rfl⟩ | hold
    · rfl
    · exact hb.toInt32_eq (hb.counterpart hold)
  rw [Heap.positionAfter, Heap.positionAfter, Heap.nextIndex, Heap.nextIndex, hsize, hword]

/-- The values of two locals at a position are linked, unless they are unbound. -/
theorem Pairs.linked_local (hp : ℓ.Pairs s ℓ' Z M S) {i : Nat} {l : Local} (hl : ℓ.locals[i]? = some l) :
    ∃ l', ℓ'.locals[i]? = some l' ∧ ∃ more : List Link, (∀ k ∈ more, k ∈ laneLinks Z M S) ∧
      (l.value = .unbound ∧ l'.value = .unbound ∨ Link.pair l.value l'.value ∈ more) := by
  obtain ⟨A, B, l', rfl, -, hl'⟩ := hp.exists_local hl
  refine ⟨l', hl', ?_⟩
  have hfit : l.Fits l' := hp.fits (l, l') (by simp)
  by_cases hbound : l.value = .unbound
  · exact ⟨[], fun _ hk => (List.not_mem_nil hk).elim, .inl ⟨hbound, hfit.bound.1 hbound⟩⟩
  · refine ⟨[Link.pair l.value l'.value], fun k hk => ?_, .inr (by simp)⟩
    obtain rfl := List.mem_singleton.1 hk
    simp [laneLinks, localLinks_append, localLinks_cons, Local.links, hbound]

theorem twin_nextPosition (i j : Nat) :
    Twin (laneBridge K s) borrow 0 t (nextPosition i j) (nextPosition i j) Same := by
  refine MethodJit.twin_reading fun ℓ ℓ' Z M S hp _ => ?_
  cases hi : ℓ.locals[i]? with
  | none =>
    exact ⟨[], fun _ hk => (List.not_mem_nil hk).elim, Twin.bounds⟩
  | some x =>
    cases hj : ℓ.locals[j]? with
    | none => exact ⟨[], fun _ hk => (List.not_mem_nil hk).elim, Twin.bounds⟩
    | some old =>
      obtain ⟨x', hi', more, hmore, hx⟩ := hp.linked_local hi
      obtain ⟨old', hj', more', hmore', hold⟩ := hp.linked_local hj
      rw [hi', hj']
      refine ⟨more ++ more', fun k hk => ?_, Twin.reading fun G ψ ψ' P h h' hb hborrow _ => ?_⟩
      · exact (List.mem_append.1 hk).elim (hmore k) (hmore' k)
      · have hmem (k : Link) (hk : k ∈ more ∨ k ∈ more') : k ∈ P :=
          hborrow k (List.mem_append.2 (.inl (List.mem_append.2 hk)))
        rw [positionAfter_eq hb (hx.imp_right fun hk => hmem _ (.inl hk)) (hold.imp_right fun hk => hmem _ (.inr hk))]
        exact Twin.pure ⟨rfl, rfl⟩

theorem twin_hasNext2 (i j : Nat) :
    Twin (laneBridge K s) borrow 0 t (hasNext2 i j) (hasNext2 i j) Done := by
  have himmortal {v : Value} (hv : ∀ a, v ≠ .ref a) (hv' : v ≠ .unbound) :
      Twin (laneBridge K s) borrow 0 t (onHeap (pure v)) (onHeap (pure v)) Gives :=
    MethodJit.twin_onHeap (twin_immortal hv hv')
  have hpush (b : Bool) : Twin (laneBridge K s) borrow 0 t (do push .eager (.object (← onHeap (pure (.bool b)))))
      (do push .eager (.object (← onHeap (pure (.bool b))))) Done := by
    refine (himmortal (by simp) (by simp)).bind fun v w P hP => ?_
    rw [hP]
    exact twin_push id nofun
  refine (twin_nextPosition i j).bind fun next _ P hP => ?_
  obtain ⟨rfl, rfl⟩ := hP
  refine (MethodJit.twin_onHeap (twin_alloc rfl)).bind fun v w P hP => ?_
  rw [hP]
  refine (twin_replace j).bind fun _ _ P hP => ?_
  rw [hP]
  by_cases hnext : next = 0
  · rw [if_pos hnext]
    refine (himmortal (by simp) (by simp)).bind fun v w P hP => ?_
    rw [hP]
    refine (twin_replace i).bind fun _ _ P hP => ?_
    rw [hP]
    exact hpush _
  · rw [if_neg hnext]
    exact hpush _

end Lane

/-- What is left to do once the old position is given up. -/
def Lane.closeEnumeration (i : Nat) (n : Int) : LaneM Unit := do
  if n = 0 then replace i (← onHeap (pure .null))
  push .eager (.object (← onHeap (pure (.bool (n ≠ 0)))))

section

variable {h : Heap} {f : Frame} {V : View} {x old : Value} {st : σ}

theorem readLocal_error {i : Int32} (hf : f.Shows V) (hi : 0 ≤ i) (hx : V.locals[i.toNatClampNeg]? = none) :
    readLocal i.toInt64 (⟨h, f, st⟩ : Machine σ) = .error .bounds ⟨h, f, st⟩ := by
  obtain ⟨heq, hlt⟩ := Int32.toInt64_eq_ofNat hi
  refine readSlot_error ?_
  rw [heq]
  exact hf.slot?_none hx (by omega)

theorem Lane.replace_lane {i : Nat} (hx : V.locals[i]? = some x) (v : Value) (h : Heap) :
    Lane.replace i v (V.lane h) =
      Lane.onHeap (release x) (({ V with locals := V.locals.set i v } : View).lane h) := by
  simp only [Lane.replace, View.locals_lane, hx, Option.map_some]
  simp [View.lane, List.map_set]

theorem Lane.hasNext2_lane {i j : Nat} (hx : V.locals[i]? = some x) (hold : V.locals[j]? = some old) (h : Heap) :
    Lane.hasNext2 i j (V.lane h) = (do
      Lane.onHeap (release old)
      Lane.closeEnumeration i (h.positionAfter x old))
      (({ V with locals := V.locals.set j (.ref h.cells.size) } : View).lane
        (h.extended (.int (.ofInt (h.positionAfter x old))))) := by
  have hnext : Lane.nextPosition i j (V.lane h) = .ok (h.positionAfter x old) (V.lane h) := by
    simp only [Lane.nextPosition, Lane.reading, View.locals_lane, hx, hold, Option.map_some]
    rfl
  have hnew : Lane.onHeap (newInt (.ofInt (h.positionAfter x old))) (V.lane h) =
      .ok (.ref h.cells.size) (V.lane (h.extended (.int (.ofInt (h.positionAfter x old))))) := rfl
  unfold Lane.hasNext2
  rw [bind_of_ok hnext, bind_of_ok hnew]
  simp only [bind, EStateM.bind, Lane.replace_lane hold]
  rfl

theorem followsAt_closeEnumeration {i : Int32} (hf : f.Shows V) (hi : 0 ≤ i)
    (hx : V.locals[i.toNatClampNeg]? = some x) (n : Int) :
    FollowsAt ⟨h, f, st⟩ V (closeEnumeration i x n) (Lane.closeEnumeration i.toNatClampNeg n) Eq := by
  unfold closeEnumeration Lane.closeEnumeration
  by_cases hn : n = 0
  · simp only [hn, if_true, ne_eq, not_true, decide_false]
    have hlane : (do
        Lane.replace i.toNatClampNeg (← Lane.onHeap (pure Value.null))
        Lane.push .eager (.object (← Lane.onHeap (pure (Value.bool false))))) (V.lane h) = (do
        Lane.onHeap (release x)
        Lane.push .eager (.object (.bool false)))
        (({ V with locals := V.locals.set i.toNatClampNeg .null } : View).lane h) := by
      have hnull : Lane.onHeap (pure Value.null) (V.lane h) = .ok .null (V.lane h) := rfl
      rw [bind_of_ok hnull]
      simp only [bind, EStateM.bind, Lane.replace_lane hx]
      rfl
    unfold FollowsAt Ends
    rw [bind_of_ok (writeLocal_shows hf hi (List.getElem?_eq_some_iff.1 hx).1 _), hlane]
    exact FollowsAt.onHeap_bind (hf.setLocal _ _) fun _ h₁ _ =>
      follows_push (.bool false) ⟨h₁, _, st⟩ _ (hf.setLocal _ _)
  · simp only [hn, if_false, ne_eq, not_false_iff, decide_true]
    exact follows_push (.bool true) ⟨h, f, st⟩ V hf

/-- An enumeration in two locals is moved on as it is meant. -/
theorem follows_hasNext2 {i j : Int32} (hi : 0 ≤ i) (hj : 0 ≤ j) (hne : i ≠ j) :
    Follows (hasNext2 i j : Act σ Unit) (Lane.hasNext2 i.toNatClampNeg j.toNatClampNeg) Eq := by
  rintro ⟨h, f, s⟩ V hf
  cases hx : V.locals[i.toNatClampNeg]? with
  | none =>
    refine Follows.of_error hf (bind_of_error (readLocal_error hf hi hx)) (bind_of_error ?_)
    simp only [Lane.nextPosition, Lane.reading, View.locals_lane, hx, Option.map_none]
    rfl
  | some x =>
    cases hold : V.locals[j.toNatClampNeg]? with
    | none =>
      refine Follows.of_error (ε := .bounds) hf ?_ (bind_of_error ?_)
      · unfold hasNext2
        rw [bind_of_ok (readLocal_ok hf hi hx), bind_of_error (readLocal_error hf hj hold)]
      · simp only [Lane.nextPosition, Lane.reading, View.locals_lane, hx, hold, Option.map_none, Option.map_some]
        rfl
    | some old =>
      have hx₁ : (V.locals.set j.toNatClampNeg (.ref h.cells.size))[i.toNatClampNeg]? = some x := by
        rw [List.getElem?_set_ne (toNatClampNeg_ne hj hi hne.symm), hx]
      unfold FollowsAt Ends
      rw [hasNext2_eq hf hi hj hx hold, Lane.hasNext2_lane hx hold]
      exact FollowsAt.onHeap_bind (hf.setLocal _ _) fun _ h₁ _ =>
        followsAt_closeEnumeration (hf.setLocal _ _) hi hx₁ _

end

/-- Moving an enumeration on does the same in both invocations, if it is held by two locals. -/
theorem Machine.twin_hasNext2 {i j : Int32} (hi : 0 ≤ i) (hj : 0 ≤ j) (hne : i ≠ j) :
    Twin (machineBridge K s I) borrow 0 t (PairAction.hasNext2.run host i j) (PairAction.hasNext2.run host i j)
      Done := by
  have hfollows := follows_hasNext2 (σ := σ) hi hj hne
  refine (hfollows.twin hfollows fun _ => Lane.twin_hasNext2 _ _).imp fun _ _ P hP => ?_
  obtain ⟨_, _, -, -, hP⟩ := hP
  exact hP

end MethodJit
