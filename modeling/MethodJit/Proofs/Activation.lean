import MethodJit.Proofs.Binding
import MethodJit.Proofs.Steps

/-!
# The beginning and the end of two invocations

Two frames that are made for linked receivers and arguments are joined once the arguments are bound.
However the invocations end, their frames can be given up; if they are joined still, only the links
besides are left.
-/

namespace MethodJit

variable {σ : Type} {K : Origin} {I : σ → Prop} {keep : Multiset Link} {borrow : List Link} {t : Prop}
  {h h' : Heap} {f f' : Frame} {st : σ} {m : Method} {v receiver receiver' global : Value}
  {cs : List (Value × Value)} {L O S A B : List Value}

/-! ## Giving up frames -/

theorem releaseEach_append {vs ws : List Value} (hok : releaseEach (vs ++ ws) h = .ok () h') :
    ∃ h₁, releaseEach vs h = .ok () h₁ ∧ releaseEach ws h₁ = .ok () h' := by
  induction vs generalizing h with
  | nil => exact ⟨h, rfl, hok⟩
  | cons v vs ih =>
    obtain ⟨_, h₁, hv, hrest⟩ := bind_eq_ok (x := release v) (f := fun _ => releaseEach (vs ++ ws)) hok
    obtain ⟨h₂, hvs, hws⟩ := ih hrest
    exact ⟨h₂, (bind_of_ok hv).trans hvs, hws⟩

theorem ofNat_length_add_one (A : List Value) (v : Value) :
    Int64.ofNat A.length + 1 = .ofNat (A ++ [v]).length := by
  rw [List.length_append, List.length_singleton, Int64.ofNat_add]
  rfl

theorem readLocal_withLocals (hloc : f.locals = some .first) (hlt : A.length < 2 ^ 63) :
    readLocal (.ofNat A.length) (⟨h, f.withLocals (A ++ v :: B), st⟩ : Machine σ) =
      .ok v ⟨h, f.withLocals (A ++ v :: B), st⟩ := by
  have hlocals : (f.withLocals (A ++ v :: B)).locals = some .first := hloc
  refine readSlot_ok ?_
  rw [hlocals, Frame.slot?_ofNat _ _ hlt]
  simp [Frame.slots, Frame.withLocals]

theorem releaseLocals_ok (st : σ) (hloc : f.locals = some .first) (hlt : (A ++ B).length < 2 ^ 63)
    (hok : releaseEach (B.filter Value.isBound) h = .ok () h') :
    ∃ B', releaseLocals B.length (.ofNat A.length) (⟨h, f.withLocals (A ++ B), st⟩ : Machine σ) =
      .ok () ⟨h', f.withLocals (A ++ B'), st⟩ := by
  induction B generalizing A h with
  | nil =>
    cases hok
    exact ⟨[], rfl⟩
  | cons v B ih =>
    have hA : A.length < 2 ^ 63 := by
      rw [List.length_append] at hlt
      omega
    have hlt' (w : Value) : ((A ++ [w]) ++ B).length < 2 ^ 63 := by simpa using hlt
    rw [List.length_cons, releaseLocals, bind_of_ok (readLocal_withLocals hloc hA)]
    cases hbound : v.isBound with
    | true =>
      rw [List.filter_cons_of_pos hbound] at hok
      obtain ⟨_, h₁, hv, hrest⟩ := bind_eq_ok (x := release v) (f := fun _ => releaseEach _) hok
      obtain ⟨B', hB'⟩ := ih (A := A ++ [.unbound]) (hlt' _) hrest
      rw [List.append_assoc, List.singleton_append, List.append_assoc] at hB'
      refine ⟨[.unbound] ++ B', ?_⟩
      simp only [if_true]
      rw [bind_of_ok (onHeap_ok hv), bind_of_ok (writeLocal_withLocals hloc hlt), ofNat_length_add_one A .unbound]
      exact hB'
    | false =>
      rw [List.filter_cons_of_neg (by simp [hbound])] at hok
      obtain ⟨B', hB'⟩ := ih (A := A ++ [v]) (hlt' _) hok
      rw [List.append_assoc, List.singleton_append, List.append_assoc] at hB'
      refine ⟨[v] ++ B', ?_⟩
      simp only [Bool.false_eq_true, if_false]
      rw [ofNat_length_add_one A v]
      exact hB'

/-- A frame with other operands. -/
def Frame.withStack (f : Frame) (O : List Value) : Frame := { f with secondSlots := O.toArray }

theorem releaseOperands_ok (st : σ) (hstack : f.stack = some .second) (hlt : (A ++ B).length < 2 ^ 63) (C : List Value)
    (hok : releaseEach B h = .ok () h') :
    ∃ T, releaseOperands B.length (.ofNat A.length) (⟨h, f.withStack (A ++ B ++ C), st⟩ : Machine σ) =
      .ok () ⟨h', f.withStack T, st⟩ := by
  induction B generalizing A h with
  | nil =>
    cases hok
    exact ⟨_, rfl⟩
  | cons v B ih =>
    have hA : A.length < 2 ^ 63 := by
      rw [List.length_append] at hlt
      omega
    have hstack' (T : List Value) : (f.withStack T).stack = some .second := hstack
    have hread : readSlot Frame.stack (.ofNat A.length) (⟨h, f.withStack (A ++ v :: B ++ C), st⟩ : Machine σ) =
        .ok v ⟨h, f.withStack (A ++ v :: B ++ C), st⟩ := by
      refine readSlot_ok ?_
      rw [hstack', Frame.slot?_ofNat _ _ hA]
      simp [Frame.slots, Frame.withStack]
    have hwrite (h₁ : Heap) : writeSlot Frame.stack (.ofNat A.length) .unbound
        (⟨h₁, f.withStack (A ++ v :: B ++ C), st⟩ : Machine σ) =
          .ok () ⟨h₁, f.withStack (A ++ .unbound :: B ++ C), st⟩ := by
      rw [writeOperand_ok (hstack' _) (by simp [Frame.withStack]) hA]
      simp [Frame.setOperand, Frame.withStack]
    obtain ⟨_, h₁, hv, hrest⟩ := bind_eq_ok (x := release v) (f := fun _ => releaseEach B) hok
    obtain ⟨T, hT⟩ := ih (A := A ++ [.unbound]) (by simpa using hlt) hrest
    rw [List.append_assoc A, List.singleton_append] at hT
    refine ⟨T, ?_⟩
    rw [List.length_cons, releaseOperands, bind_of_ok hread, bind_of_ok (onHeap_ok hv), bind_of_ok (hwrite h₁),
      ofNat_length_add_one A .unbound]
    exact hT

/-- A frame can be given up if what it holds can. -/
theorem releaseFrame_ok (st : σ) (hf : f.Holds L O S)
    (hok : releaseEach (L.filter Value.isBound ++ O ++ S) h = .ok () h') :
    ∃ f', releaseFrame (⟨h, f, st⟩ : Machine σ) = .ok () ⟨h', f', st⟩ := by
  obtain ⟨h₂, hok, hscope⟩ := releaseEach_append hok
  obtain ⟨h₁, hlocals, hoperands⟩ := releaseEach_append hok
  have hsize : f.localSlots.size = L.length := by
    rw [← hf.slots, Array.length_toList, Frame.localSlots, hf.locals]
    rfl
  have hlimit := hf.slotLimit
  have hlimit' := hf.limit
  rw [Frame.slotLimit] at hlimit
  rw [Frame.operandLimit] at hlimit'
  have hlen := hf.length_operands
  have hfits := hf.fits
  have hL : L.length = f.firstSlots.size := by rw [← hf.slots, Array.length_toList]
  have hframe : f.withLocals L = f := by
    rw [Frame.withLocals, ← hf.slots]
  -- The locals first, then the operands, which are the slots below the stack index.
  obtain ⟨L', hL'⟩ := releaseLocals_ok (A := []) st hf.locals (by
    rw [List.nil_append]
    omega) hlocals
  have hzero : Int64.ofNat ([] : List Value).length = 0 := rfl
  rw [List.nil_append, List.nil_append, hframe, hzero] at hL'
  have hstack : (f.withLocals L').withStack (O ++ f.secondSlots.toList.drop f.stackIndex.toNatClampNeg) =
      f.withLocals L' := by
    rw [Frame.withStack, ← hf.operands, List.take_append_drop]
    rfl
  obtain ⟨T, hT⟩ := releaseOperands_ok (f := f.withLocals L') (A := []) st hf.stack (by
    rw [List.nil_append]
    omega) (f.secondSlots.toList.drop f.stackIndex.toNatClampNeg) hoperands
  rw [List.nil_append, hstack, hzero] at hT
  refine ⟨{ (f.withLocals L').withStack T with stackIndex := 0, scope := #[] }, ?_⟩
  have hread : (frame : Act σ Frame) ⟨h, f, st⟩ = .ok f ⟨h, f, st⟩ := rfl
  rw [releaseFrame, bind_of_ok hread, hsize, bind_of_ok hL', ← hlen, bind_of_ok hT]
  have hscopes := forM_onHeap_ok (f := { (f.withLocals L').withStack T with stackIndex := 0 }) (s := st) hscope
  rw [← hf.scope] at hscopes
  exact bind_of_ok hscopes

theorem sum_refs_eq (L : List Value) : (L.map Value.refs).sum = (↑(L.filter Value.isBound) : Multiset Value) := by
  induction L with
  | nil => rfl
  | cons v L ih =>
    rw [List.map_cons, List.sum_cons, ih]
    cases v with
    | unbound => exact zero_add _
    | _ => rfl

/-- A run that owns what its frame holds can give it up. -/
theorem Machine.Owns.releaseFrame {mc : Machine σ} {own : Multiset Value} (ho : mc.Owns own) :
    ∃ mc₁, MethodJit.releaseFrame mc = .ok () mc₁ ∧ mc₁.host = mc.host ∧ MethodJit.Owns own mc₁.heap := by
  obtain ⟨h, f, st⟩ := mc
  obtain ⟨L, O, S, hf, ho⟩ := ho
  rw [add_comm, sum_refs_eq, Multiset.coe_add, Multiset.coe_add] at ho
  obtain ⟨h₁, hok, ho⟩ := MethodJit.Owns.releaseEach _ ho
  obtain ⟨f₁, hrun⟩ := releaseFrame_ok st hf hok
  exact ⟨_, hrun, rfl, ho⟩

/-- Links can be given up on both sides. -/
theorem Linked.releaseEach (hl : Linked K (pairLinks cs + keep) h h') :
    ∃ h₁ h₁', releaseEach (cs.map (·.1)) h = .ok () h₁ ∧ releaseEach (cs.map (·.2)) h' = .ok () h₁' ∧
      Linked K keep h₁ h₁' := by
  have ho := hl.owns_left
  rw [lefts_add, lefts_pairLinks] at ho
  obtain ⟨h₁, hok, -⟩ := ho.releaseEach
  have hagree := twin_releaseEach (t := False) keep h h' (fun _ hm => (List.not_mem_nil hm).elim) hl
  rw [hok] at hagree
  cases hok' : MethodJit.releaseEach (cs.map (·.2)) h' with
  | ok u h₁' =>
    rw [hok'] at hagree
    obtain ⟨P, rfl, hl⟩ := hagree
    exact ⟨h₁, h₁', hok, rfl, by rwa [zero_add] at hl⟩
  | error e h₁' =>
    rw [hok'] at hagree
    exact hagree.elim

/-- The locals of two frames that are linked, in pairs. -/
theorem exists_boundPairs {L L' : List Value} {M : List (Local × Local)}
    (hL : L.map (fun v => ({ value := v } : Local)) = M.map Prod.fst)
    (hL' : L'.map (fun v => ({ value := v } : Local)) = M.map Prod.snd) (hM : ∀ p ∈ M, p.1.Fits p.2) :
    GivesEach (L.filter Value.isBound) (L'.filter Value.isBound) (localLinks M) := by
  induction M generalizing L L' with
  | nil =>
    obtain rfl := List.map_eq_nil_iff.1 hL
    obtain rfl := List.map_eq_nil_iff.1 hL'
    exact ⟨[], rfl, rfl, rfl⟩
  | cons p M ih =>
    obtain ⟨v, L, rfl, hv, hL⟩ := List.map_eq_cons_iff.1 hL
    obtain ⟨w, L', rfl, hw, hL'⟩ := List.map_eq_cons_iff.1 hL'
    obtain ⟨hp, hM⟩ := List.forall_mem_cons.1 hM
    obtain ⟨cs, hcs, hcs', hlinks⟩ := ih hL hL' hM
    have hlink : p.1.links p.2 = if v = .unbound then 0 else {Link.pair v w} := by
      rw [← hv, ← hw]
      simp [Local.links, Local.strays]
    rw [localLinks_cons, hlinks, hlink]
    have hbound : v = .unbound ↔ w = .unbound := by
      rw [← hv, ← hw] at hp
      exact hp.bound
    by_cases hu : v = .unbound
    · obtain rfl := hu
      obtain rfl := hbound.1 rfl
      exact ⟨cs, hcs, hcs', by rw [if_pos rfl, zero_add]⟩
    · refine ⟨(v, w) :: cs, ?_, ?_, ?_⟩
      · rw [List.filter_cons_of_pos (isBound_of_ne hu), hcs]
        rfl
      · rw [List.filter_cons_of_pos (isBound_of_ne fun hw => hu (hbound.2 hw)), hcs']
        rfl
      · rw [if_neg hu]
        rfl

/-- What two frames hold that are joined, in pairs. -/
theorem Lane.Pairs.exists_frames {s : Setting} {V V' : View} {Z : List (Item × Item)} {M : List (Local × Local)}
    {S : List (Value × Value)} (hp : Lane.Pairs s (V.lane h) (V'.lane h') Z M S) :
    GivesEach (V.locals.filter Value.isBound ++ V.operands ++ V.scope)
      (V'.locals.filter Value.isBound ++ V'.operands ++ V'.scope) (laneLinks Z M S) := by
  obtain ⟨ls, hls, hls', hlocals⟩ := exists_boundPairs hp.locals_left hp.locals_right hp.fits
  obtain ⟨os, hos, hos', hoperands⟩ := GivesItems.objects ⟨Z, hp.operands_left, hp.operands_right, rfl⟩
  refine ⟨ls ++ os.reverse ++ S, ?_, ?_, ?_⟩
  · rw [List.map_append, List.map_append, ← hls, List.map_reverse, ← hos, List.reverse_reverse]
    exact congrArg _ hp.scope_left
  · rw [List.map_append, List.map_append, ← hls', List.map_reverse, ← hos', List.reverse_reverse]
    exact congrArg _ hp.scope_right
  · rw [laneLinks, hlocals, hoperands, pairLinks_append, pairLinks_append, add_comm (pairLinks os)]
    congr 2
    simp [pairLinks]

/-- Two invocations that are joined give up their frames together. -/
theorem Machine.Joined.releaseFrame {s : Setting} {mc mc' : Machine σ}
    (hj : Machine.Joined K s I keep mc mc') :
    ∃ mc₁ mc₁', MethodJit.releaseFrame mc = .ok () mc₁ ∧ MethodJit.releaseFrame mc' = .ok () mc₁' ∧
      mc₁.host = mc₁'.host ∧ I mc₁.host ∧ Linked K keep mc₁.heap mc₁'.heap := by
  obtain ⟨h, f, st⟩ := mc
  obtain ⟨h', f', st'⟩ := mc'
  obtain ⟨hhost, hI, V, V', n, hf, hf', Z, M, S, hp, -, hl⟩ := hj
  obtain ⟨cs, hcs, hcs', hlinks⟩ := hp.exists_frames
  rw [hlinks] at hl
  obtain ⟨h₁, h₁', hok, hok', hl⟩ := hl.releaseEach
  rw [← hcs] at hok
  rw [← hcs'] at hok'
  obtain ⟨f₁, hrun⟩ := releaseFrame_ok st hf.toHolds hok
  obtain ⟨f₁', hrun'⟩ := releaseFrame_ok st' hf'.toHolds hok'
  exact ⟨_, _, hrun, hrun', hhost, hI, hl⟩

/-! ## Binding arguments -/

/-- The arguments of each parameter, or undefined. -/
def parameterPairs (n : Nat) (cs : List (Value × Value)) : List (Value × Value) :=
  cs.take n ++ List.replicate (n - cs.length) (.undefined, .undefined)

theorem map_fst_parameterPairs (n : Nat) (cs : List (Value × Value)) :
    (parameterPairs n cs).map (·.1) = parameterValues n (cs.map (·.1)) := by
  simp [parameterPairs, parameterValues]

theorem map_snd_parameterPairs (n : Nat) (cs : List (Value × Value)) :
    (parameterPairs n cs).map (·.2) = parameterValues n (cs.map (·.2)) := by
  simp [parameterPairs, parameterValues]

theorem collected_map (m : Method) (g : Value × Value → Value) (cs : List (Value × Value)) :
    m.collected (cs.map g) =
      (if m.flags.needArguments then cs else cs.drop m.params.toNatClampNeg).map g := by
  unfold Method.collected
  split
  · rfl
  · rw [List.map_drop]

theorem twin_collectHeap (hcs : ∀ p ∈ cs, Link.pair p.1 p.2 ∈ borrow) (m : Method) :
    Twin (heapBridge K) borrow 0 t (collectHeap m (cs.map (·.1))) (collectHeap m (cs.map (·.2))) GivesEach := by
  unfold collectHeap
  rw [collected_map, collected_map]
  split
  · refine (twin_retainEach fun p hp => hcs p ?_).bind fun _ _ P hP => ?_
    · split at hp
      · exact hp
      · exact List.mem_of_mem_drop hp
    rw [hP]
    refine twin_newArray.bind fun v w P hP => ?_
    rw [hP]
    exact Twin.pure ⟨[(v, w)], rfl, rfl, rfl⟩
  · exact Twin.pure ⟨[], rfl, rfl, rfl⟩

theorem twin_retain_undefined : Twin (heapBridge K) borrow 0 t (retain .undefined) (retain .undefined)
    fun _ _ Q => Q = {Link.pair .undefined .undefined} := by
  refine .of_bond fun G ψ ψ' P h h' hb _ => ?_
  rw [zero_add] at hb
  exact .inl ⟨(), (), h, h', rfl, rfl, rfl, rfl, _, rfl, G, ψ, ψ', hb.add_immortal (by simp) (by simp)⟩

theorem twin_bindHeap (borrow : List Link) (hr : Link.pair receiver receiver' ∈ borrow)
    (hcs : ∀ p ∈ cs, Link.pair p.1 p.2 ∈ borrow) (m : Method) :
    Twin (heapBridge K) borrow 0 t (bindHeap m receiver (cs.map (·.1))) (bindHeap m receiver' (cs.map (·.2)))
      fun A A' P => ∃ ds : List (Value × Value), A = ds.map (·.1) ∧ A' = ds.map (·.2) ∧
        P = pairLinks ((receiver, receiver') :: parameterPairs m.params.toNatClampNeg cs ++ ds) := by
  have hparams : Twin (heapBridge K) borrow 0 False
      ((parameterValues m.params.toNatClampNeg (cs.map (·.1))).forM retain)
      ((parameterValues m.params.toNatClampNeg (cs.map (·.2))).forM retain)
      fun _ _ Q => Q = pairLinks (parameterPairs m.params.toNatClampNeg cs) := by
    rw [← map_fst_parameterPairs, ← map_snd_parameterPairs]
    refine twin_forM_retain fun p hp => ?_
    rcases List.mem_append.1 hp with hp | hp
    · exact twin_retain (hcs p (List.mem_of_mem_take hp))
    · obtain rfl := List.eq_of_mem_replicate hp
      exact twin_retain_undefined
  have hreceiver : Twin (heapBridge K) borrow 0 t (retain receiver) (retain receiver') fun _ _ Q =>
      Q = {Link.pair receiver receiver'} := twin_retain hr
  refine hreceiver.bind fun _ _ P hP => ?_
  rw [hP, ← zero_add {Link.pair receiver receiver'}]
  refine hparams.bind_rest fun _ _ P hP => ?_
  have hcollect := (twin_collectHeap (K := K) (t := False) hcs m).frame (t := t) (P + {Link.pair receiver receiver'})
  rw [zero_add] at hcollect
  refine hcollect.imp fun A A' Q hQ => ?_
  obtain ⟨_, ⟨ds, rfl, rfl, rfl⟩, rfl⟩ := hQ
  refine ⟨ds, rfl, rfl, ?_⟩
  rw [hP, List.cons_append, ← List.singleton_append, pairLinks_append, pairLinks_append, add_comm (pairLinks ds),
    add_comm (pairLinks (parameterPairs _ _)), add_assoc]
  rfl

/-- What the instructions of a method see in the beginning. -/
def Method.setting (m : Method) (global : Value) : Setting where
  capacity := m.maxStack.toNatClampNeg
  global := global
  method := m
  jumps := 0

/-- A new frame. -/
def Method.freshFrame (m : Method) (receiver : Value) (args : List Value) (global : Value) : Frame where
  firstSlots := .replicate m.locals.toNatClampNeg .unbound
  secondSlots := .replicate m.maxStack.toNatClampNeg .unbound
  receiver := receiver
  args := args
  global := global
  method := m

theorem Method.freshFrame_withLocals (m : Method) (receiver : Value) (args : List Value) (global : Value) :
    (m.freshFrame receiver args global).withLocals (List.replicate m.locals.toNatClampNeg .unbound) =
      m.freshFrame receiver args global := by
  simp [Frame.withLocals, Method.freshFrame]

theorem Method.shows_freshFrame {args L : List Value} (hL : L.length = m.locals.toNatClampNeg)
    (hlocals : m.locals.toNatClampNeg ≤ Frame.slotLimit) (hstack : m.maxStack.toNatClampNeg ≤ Frame.operandLimit) :
    ((m.freshFrame receiver args global).withLocals L).Shows
      { m.setting global with locals := L, operands := [], scope := [] } where
  locals := rfl
  stack := rfl
  slots := rfl
  operands := rfl
  fits := Nat.zero_le _
  scope := rfl
  slotLimit := by simpa [Frame.withLocals, hL] using hlocals
  limit := by simpa [Frame.withLocals, Method.freshFrame] using hstack
  nonneg := by simp [Frame.withLocals, Method.freshFrame]
  capacity := by simp [Frame.withLocals, Method.freshFrame, Method.setting]
  global := rfl
  method := rfl
  jumps := rfl

theorem Linked.add_undefined (hl : Linked K keep h h') (n : Nat) :
    Linked K (pairLinks (List.replicate n (.undefined, .undefined)) + keep) h h' := by
  induction n with
  | zero =>
    rw [List.replicate_zero]
    simpa [pairLinks] using hl
  | succ n ih =>
    obtain ⟨G, ψ, ψ', A, hb, hA⟩ := ih
    refine ⟨G, ψ, ψ', A, ?_, hA⟩
    have hb := hb.add_immortal (v := .undefined) (by simp) (by simp)
    rw [add_left_comm, ← add_assoc ({_} : Multiset Link)] at hb
    exact hb

/-- Two frames with linked locals are joined. -/
theorem Linked.joined_freshFrames {D : List (Value × Value)} {args args' : List Value}
    (hl : Linked K (pairLinks D + keep) h h') (hD : D.length = m.locals.toNatClampNeg)
    (hlocals : m.locals.toNatClampNeg ≤ Frame.slotLimit) (hstack : m.maxStack.toNatClampNeg ≤ Frame.operandLimit)
    (hI : I st) :
    Machine.Joined K (m.setting global) I keep
      ⟨h, (m.freshFrame receiver args global).withLocals (D.map (·.1)), st⟩
      ⟨h', (m.freshFrame receiver' args' global).withLocals (D.map (·.2)), st⟩ := by
  have hbound (p : Value × Value) (hp : p ∈ D) : p.1 ≠ .unbound ∧ p.2 ≠ .unbound :=
    hl.bound (Multiset.mem_add.2 (.inl (Multiset.mem_coe.2 (List.mem_map_of_mem hp))))
  refine ⟨rfl, hI, _, _, 0, Method.shows_freshFrame (by simpa using hD) hlocals hstack,
    Method.shows_freshFrame (by simpa using hD) hlocals hstack, [],
    D.map (fun p => (({ value := p.1 } : Local), ({ value := p.2 } : Local))), [], ?_,
    fun _ hp => (List.not_mem_nil hp).elim, ?_⟩
  · refine ⟨rfl, rfl, rfl, rfl, ?_, ?_, rfl, rfl, fun p hp => ?_⟩
    · simp [View.lane]
    · simp [View.lane]
    · obtain ⟨q, hq, rfl⟩ := List.mem_map.1 hp
      obtain ⟨h₁, h₂⟩ := hbound q hq
      exact ⟨⟨fun hu => absurd hu h₁, fun hu => absurd hu h₂⟩, fun hu => absurd hu h₁⟩
  · have hlinks : localLinks (D.map fun p => (({ value := p.1 } : Local), ({ value := p.2 } : Local))) =
        pairLinks D := by
      clear hl hD
      induction D with
      | nil => rfl
      | cons p D ih =>
        obtain ⟨hp, hD⟩ := List.forall_mem_cons.1 hbound
        rw [List.map_cons, localLinks_cons, ih hD]
        simp [Local.links, Local.strays, hp.1, pairLinks, ← Multiset.singleton_add, ← Multiset.cons_coe]
    have hnil : laneLinks [] (D.map fun p => (({ value := p.1 } : Local), ({ value := p.2 } : Local))) [] =
        pairLinks D := by
      rw [laneLinks, hlinks]
      simp [itemLinks, pairLinks]
    rw [hnil]
    exact hl

theorem Frame.eq_freshFrame {args : List Value} (hmake : Frame.make? m receiver args global = some f) :
    f = m.freshFrame receiver args global ∧ m.locals.toNatClampNeg ≤ Frame.slotLimit ∧
      m.maxStack.toNatClampNeg ≤ Frame.operandLimit := by
  obtain ⟨-, -, hlocals, hstack, rfl⟩ := Frame.make?_eq_some.1 hmake
  exact ⟨rfl, hlocals, hstack⟩

/-- The locals that are bound, in pairs. -/
theorem boundLocals_eq (m : Method) {g : Value × Value → Value} (r : Value × Value) (cs ds : List (Value × Value))
    (n : Nat) (hg : g (.undefined, .undefined) = .undefined)
    (hparams : parameterValues m.params.toNatClampNeg (cs.map g) =
      (parameterPairs m.params.toNatClampNeg cs).map g) :
    m.boundLocals (g r) (cs.map g) (ds.map g) n =
      (r :: parameterPairs m.params.toNatClampNeg cs ++ ds ++
        List.replicate (n - m.boundCount) (Value.undefined, Value.undefined)).map g := by
  rw [Method.boundLocals, hparams]
  simp [hg]

/-- A valid method whose number of bound locals has overflowed leaves its bounds. -/
theorem bindArguments_bounds (args : List Value) (global : Value) (st : σ) (hvalid : m.problem? = none)
    (hcount : ¬m.boundCount ≤ m.locals.toNatClampNeg) (hlocals : m.locals.toNatClampNeg ≤ Frame.slotLimit)
    (hstack : m.maxStack.toNatClampNeg ≤ Frame.operandLimit) {own : Multiset Value}
    {h₁ : Heap} (hok : retain receiver h = .ok () h₁) (ho : Owns (own + {receiver}) h₁) :
    ∃ mc, bindArguments (⟨h, m.freshFrame receiver args global, st⟩ : Machine σ) = .error .bounds mc ∧
      mc.Owns own := by
  obtain ⟨hp, -, hbound⟩ := Method.of_problem? hvalid
  have hp' : (m.params.toNatClampNeg : Int) = m.params.toInt :=
    Int.toNat_of_nonneg (Int64.le_iff_toInt_le.1 hp)
  have hlarge : 2 ^ 63 ≤ m.boundCount := by
    by_contra hlt
    have hfit := Nat.lt_of_not_le hlt
    rw [Method.boundSlots_eq hp hfit, Int64.le_iff_toInt_le, Int64.toInt_ofNat_of_lt hfit] at hbound
    refine hcount ?_
    rw [Int64.toNatClampNeg]
    omega
  have hparams : (m.locals.toNatClampNeg : Int) < 1 + m.params.toInt := by
    rw [Frame.slotLimit] at hlocals
    unfold Method.boundCount at hlarge
    split at hlarge <;> omega
  have hsize : (m.freshFrame receiver args global).localSlots.size = m.locals.toNatClampNeg := by
    simp [Frame.localSlots, Method.freshFrame, Frame.slots]
  have hframe : (frame : Act σ Frame) ⟨h, m.freshFrame receiver args global, st⟩ =
      .ok (m.freshFrame receiver args global) ⟨h, m.freshFrame receiver args global, st⟩ := rfl
  have hretain : onHeap (retain (m.freshFrame receiver args global).receiver)
      (⟨h, m.freshFrame receiver args global, st⟩ : Machine σ) = .ok () ⟨h₁, m.freshFrame receiver args global, st⟩ :=
    onHeap_ok hok
  have hholds (L : List Value) (hL : L.length = m.locals.toNatClampNeg) :
      ((m.freshFrame receiver args global).withLocals L).Holds L [] [] :=
    (Method.shows_freshFrame hL hlocals hstack).toHolds
  rw [bindArguments, bind_of_ok hframe, bind_of_ok hretain, hsize]
  cases hn : m.locals.toNatClampNeg with
  | zero =>
    have hwrite : writeLocal 0 receiver (⟨h₁, m.freshFrame receiver args global, st⟩ : Machine σ) =
        .error .bounds ⟨h₁, m.freshFrame receiver args global, st⟩ :=
      writeLocal_error (n := 0) (a := Frame.locals) rfl (by simp [Method.freshFrame, hn]) (by decide)
    refine ⟨_, bind_of_error hwrite, [], [], [], ?_, ho.of_le (by simp)⟩
    have hempty := m.freshFrame_withLocals receiver args global
    rw [hn] at hempty
    rw [← hempty]
    exact hholds [] hn.symm
  | succ n =>
    have hwrite := writeLocal_withLocals (f := m.freshFrame receiver args global) (A := []) (b := .unbound)
      (B := List.replicate n .unbound) (v := receiver) (h := h₁) (s := st) rfl (by
        rw [Frame.slotLimit] at hlocals
        simp
        omega)
    have hempty := m.freshFrame_withLocals receiver args global
    rw [hn, List.replicate_succ] at hempty
    rw [List.nil_append, hempty] at hwrite
    have hparam : bindParameters (n + 1) m args (⟨h₁, (m.freshFrame receiver args global).withLocals
        (receiver :: List.replicate n .unbound), st⟩ : Machine σ) = .error .bounds
        ⟨h₁, (m.freshFrame receiver args global).withLocals (receiver :: List.replicate n .unbound), st⟩ := by
      rw [bindParameters, if_pos (by rw [← hn]; exact hparams)]
      rfl
    refine ⟨_, (bind_of_ok hwrite).trans (bind_of_error hparam), receiver :: List.replicate n .unbound, [], [],
      hholds _ (by simp [hn]), ho.of_le ?_⟩
    have hrest : (List.replicate n Value.unbound).filter Value.isBound = [] := by simp [Value.isBound]
    rw [sum_refs_eq, List.filter_cons, hrest]
    split <;> simp

theorem bindArguments_freshFrame {args C : List Value} (hp : 0 ≤ m.params)
    (hcount : m.boundCount ≤ m.locals.toNatClampNeg) (hlocals : m.locals.toNatClampNeg ≤ Frame.slotLimit)
    (hheap : bindHeap m receiver args h = .ok C h') :
    bindArguments (⟨h, m.freshFrame receiver args global, st⟩ : Machine σ) =
      .ok () ⟨h', (m.freshFrame receiver args global).withLocals
        (m.boundLocals receiver args C m.locals.toNatClampNeg), st⟩ := by
  have hlen : (List.replicate m.locals.toNatClampNeg Value.unbound).length = m.locals.toNatClampNeg :=
    List.length_replicate
  have hlt : (List.replicate m.locals.toNatClampNeg Value.unbound).length < 2 ^ 63 := by
    rw [hlen]
    rw [Frame.slotLimit] at hlocals
    omega
  have hbind := bindArguments_ok (f := m.freshFrame receiver args global) (s := st) rfl hp
    (hcount.trans_eq hlen.symm) hlt hheap
  rwa [m.freshFrame_withLocals, hlen] at hbind

/-- Arguments are bound together. -/
theorem agree_bindArguments (hvalid : m.problem? = none)
    (hmake : Frame.make? m receiver (cs.map (·.1)) global = some f)
    (hmake' : Frame.make? m receiver' (cs.map (·.2)) global = some f') (hI : I st) (hl : Linked K keep h h')
    (hr : Link.pair receiver receiver' ∈ keep) (hcs : ∀ p ∈ cs, Link.pair p.1 p.2 ∈ keep) :
    Agree (machineBridge K (m.setting global) I) keep t Done (bindArguments ⟨h, f, st⟩)
      (bindArguments ⟨h', f', st⟩) := by
  obtain ⟨rfl, hlocals, hstack⟩ := Frame.eq_freshFrame hmake
  obtain ⟨rfl, -, -⟩ := Frame.eq_freshFrame hmake'
  obtain ⟨hp, -, -⟩ := Method.of_problem? hvalid
  obtain ⟨G, ψ, ψ', A, hb, -⟩ := id hl
  have hcounterpart {v w : Value} (hm : Link.pair v w ∈ keep) : Counterpart ψ ψ' h h' v w :=
    hb.counterpart (Multiset.mem_add.2 (.inr hm))
  have hlive {h : Heap} {v : Value} (hv : h.Live v) : h.kind? v ≠ none := by
    obtain ⟨k, hk⟩ := hv.exists_kind
    rw [hk]
    exact Option.some_ne_none k
  by_cases hcount : m.boundCount ≤ m.locals.toNatClampNeg
  · have hkind (v : Value) (hv : v ∈ receiver :: cs.map (·.1)) : h.kind? v ≠ none := by
      rcases List.mem_cons.1 hv with rfl | hv
      · exact hlive (hcounterpart hr).left
      · obtain ⟨p, hp, rfl⟩ := List.mem_map.1 hv
        exact hlive (hcounterpart (hcs p hp)).left
    have hkind' (v : Value) (hv : v ∈ receiver' :: cs.map (·.2)) : h'.kind? v ≠ none := by
      rcases List.mem_cons.1 hv with rfl | hv
      · exact hlive (hcounterpart hr).right
      · obtain ⟨p, hp, rfl⟩ := List.mem_map.1 hv
        exact hlive (hcounterpart (hcs p hp)).right
    obtain ⟨h₁, hheap, -⟩ := bindHeap_ok (m := m) hkind
    obtain ⟨h₁', hheap', -⟩ := bindHeap_ok (m := m) hkind'
    have hagree := twin_bindHeap (K := K) (t := t) (Link.pair receiver receiver' :: cs.map fun p => Link.pair p.1 p.2)
      List.mem_cons_self (fun p hp => List.mem_cons_of_mem _ (List.mem_map_of_mem hp)) m keep h h' (fun l hm => by
        rcases List.mem_cons.1 hm with rfl | hm
        · exact hr
        · obtain ⟨p, hp, rfl⟩ := List.mem_map.1 hm
          exact hcs p hp) (by rwa [zero_add])
    rw [hheap, hheap'] at hagree
    obtain ⟨_, ⟨ds, hds, hds', rfl⟩, hl₁⟩ := hagree
    rw [hds] at hheap
    rw [hds'] at hheap'
    have hpairs := boundLocals_eq m (g := fun p => p.1) (receiver, receiver') cs ds m.locals.toNatClampNeg rfl
      (map_fst_parameterPairs _ cs).symm
    have hpairs' := boundLocals_eq m (g := fun p => p.2) (receiver, receiver') cs ds m.locals.toNatClampNeg rfl
      (map_snd_parameterPairs _ cs).symm
    have hlen := congrArg List.length hpairs
    simp only at hpairs hpairs' hlen
    rw [← hds, length_boundLocals hcount, List.length_map] at hlen
    rw [bindArguments_freshFrame hp hcount hlocals hheap, bindArguments_freshFrame hp hcount hlocals hheap',
      hpairs, hpairs']
    refine ⟨0, rfl, Linked.joined_freshFrames ?_ hlen.symm hlocals hstack hI⟩
    rw [zero_add, pairLinks_append, add_comm (pairLinks _), add_assoc]
    exact hl₁.add_undefined _
  · have hc := hcounterpart hr
    obtain ⟨h₁, h₁', hok, -, -, -, hb₁⟩ := hb.retain hc
    rw [add_comm, add_assoc] at hb₁
    have ho := hb₁.owns_left
    rw [lefts_add, lefts_singleton, lefts_pair] at ho
    obtain ⟨mc, hrun, ho⟩ := bindArguments_bounds (cs.map (·.1)) global st hvalid hcount
      hlocals hstack hok ho
    rw [hrun]
    exact Agree.of_bounds ho

end MethodJit
