import MethodJit.Proofs.Invocations

/-!
# Routines in lockstep

The routines on frames are compared here, those that call functions included. What is assumed of the host
is `Faithful`: called with linked receivers and arguments, which it borrows, it gives linked values. A
construction that fails abandons its new object in both runs.
-/

namespace MethodJit

variable {σ α β : Type} {K : Origin} {s : Setting} {I : σ → Prop} {P Q pre : Multiset Link}
  {G borrow : List Link} {t : Prop} {h h' : Heap} {v w : Value} {R : α → β → Multiset Link → Prop}
  {host : Host σ} {cs : List (Value × Value)}

/-- Two stores of the same origin, with the same host. -/
def storeBridge (K : Origin) (I : σ → Prop) : Bridge (Store σ) (Store σ) where
  joined P st st' := st.host = st'.host ∧ I st.host ∧ Linked K P st.heap st'.heap
  failed P st st' := st.host = st'.host ∧ I st.host ∧ Linked K P st.heap st'.heap
  left own st := Owns own st.heap
  right own st := Owns own st.heap
  joined_left _ _ _ hj := hj.2.2.owns_left
  joined_right _ _ _ hj := hj.2.2.owns_right
  left_mono _ _ _ := Owns.mono
  right_mono _ _ _ := Owns.mono

theorem storeBridge_plain (K : Origin) (I : σ → Prop) : (storeBridge K I).Plain := rfl

/-- The host runs linked calls in lockstep, as long as the links `G` are owned besides. -/
def Faithful (K : Origin) (I : σ → Prop) (G : List Link) (host : Host σ) : Prop :=
  ∀ engine index v w (cs : List (Value × Value)),
    Twin (storeBridge K I) (Link.pair v w :: (cs.map fun p => Link.pair p.1 p.2) ++ G) 0 True
      (host engine index v (cs.map (·.1))) (host engine index w (cs.map (·.2))) Gives

/-! ## What is given up afterwards -/

theorem Owns.releaseEach (vs : List Value) {own : Multiset Value} (ho : Owns (↑vs + own) h) :
    ∃ h', releaseEach vs h = .ok () h' ∧ Owns own h' := by
  induction vs generalizing h with
  | nil => exact ⟨h, rfl, by simpa using ho⟩
  | cons v vs ih =>
    rw [coe_cons, add_assoc] at ho
    obtain ⟨h₁, hok, ho⟩ := ho.release
    obtain ⟨h₂, hok₂, ho⟩ := ih ho
    exact ⟨h₂, (bind_of_ok hok).trans hok₂, ho⟩

theorem twin_releaseEach : Twin (heapBridge K) borrow (pairLinks cs) t (releaseEach (cs.map (·.1)))
    (releaseEach (cs.map (·.2))) Done := by
  induction cs with
  | nil => exact Twin.pure rfl
  | cons p cs ih =>
    have hfirst : Twin (heapBridge K) borrow {Link.pair p.1 p.2} False (release p.1) (release p.2) Done :=
      twin_release
    have hlinks : pairLinks (p :: cs) = {Link.pair p.1 p.2} + pairLinks cs := rfl
    rw [hlinks]
    refine hfirst.bind_rest fun _ _ P hP => ?_
    rw [hP, zero_add]
    exact ih

theorem cleans_releaseEach : Cleans (heapBridge K) (pairLinks cs) (releaseEach (cs.map (·.1)))
    (releaseEach (cs.map (·.2))) where
  both := twin_releaseEach
  left own h hl := Owns.releaseEach _ (by rwa [lefts_pairLinks] at hl)
  right own h hr := Owns.releaseEach _ (by rwa [rights_pairLinks] at hr)

namespace Machine

theorem cleans_onHeap {a a' : HeapM Unit} (hc : Cleans (heapBridge K) P a a') :
    Cleans (machineBridge K s I) P (onHeap a) (onHeap a') where
  both := twin_onHeap hc.both
  left own mc ho := by
    obtain ⟨L, O, S, hf, ho⟩ := ho
    rw [add_assoc] at ho
    obtain ⟨h₁, hok, ho⟩ := hc.left _ mc.heap ho
    exact ⟨{ mc with heap := h₁ }, onHeap_ok hok, L, O, S, hf, ho⟩
  right own mc ho := by
    obtain ⟨L, O, S, hf, ho⟩ := ho
    rw [add_assoc] at ho
    obtain ⟨h₁, hok, ho⟩ := hc.right _ mc.heap ho
    exact ⟨{ mc with heap := h₁ }, onHeap_ok hok, L, O, S, hf, ho⟩

variable {mc mc' : Machine σ}

/-- The heaps of two invocations have one graph. -/
theorem Joined.exists_bond (hj : Joined K s I P mc mc') :
    ∃ G ψ ψ' Q, Bond K.size G ψ ψ' Q mc.heap mc'.heap ∧ ∀ l ∈ P, l ∈ Q := by
  obtain ⟨-, -, V, V', n, -, -, Z, M, S, -, -, G, ψ, ψ', A, hb, -⟩ := hj
  exact ⟨G, ψ, ψ', _, hb, fun l hl => Multiset.mem_add.2 (.inr (Multiset.mem_add.2 (.inr hl)))⟩

theorem twin_consumingAct {x : Act σ α} {y : Act σ β}
    (h : Twin (machineBridge K s I) (Link.pair v w :: borrow) pre t x y R) :
    Twin (machineBridge K s I) borrow ({Link.pair v w} + pre) t (consumingAct v x) (consumingAct w y) R := by
  intro keep mc mc' hkeep hj
  obtain ⟨G, ψ, ψ', Q, hb, hQ⟩ := hj.exists_bond
  have hc : Counterpart ψ ψ' mc.heap mc'.heap v w := hb.counterpart (hQ _ (by simp))
  rw [consumingAct, if_pos (isBound_of_ne hc.left.ne_unbound), consumingAct,
    if_pos (isBound_of_ne hc.right.ne_unbound)]
  exact Twin.ensuring [Link.pair v w] (machineBridge_plain K s I) h (cleans_onHeap cleans_release) keep mc mc'
    hkeep hj

theorem onStore_eq (x : EStateM Fault (Store σ) α) (mc : Machine σ) :
    onStore x mc = within (fun st => ⟨st.heap, mc.frame, st.host⟩) (x ⟨mc.heap, mc.host⟩) := by
  obtain ⟨h, f, s⟩ := mc
  simp only [onStore]
  cases x ⟨h, s⟩ <;> rfl

/-- Actions on the stores of two invocations, whose frames rest. -/
theorem twin_onStore {x : EStateM Fault (Store σ) α} {y : EStateM Fault (Store σ) β}
    (h : Twin (storeBridge K I) borrow pre t x y R) :
    Twin (machineBridge K s I) borrow pre t (onStore x) (onStore y) R := by
  intro keep mc mc' hkeep hj
  obtain ⟨hhost, hI, V, V', n, hf, hf', Z, M, S, hp, hZ, hl⟩ := hj
  have hagree := h (laneLinks Z M S + keep) ⟨mc.heap, mc.host⟩ ⟨mc'.heap, mc'.host⟩
    (fun l hl => Multiset.mem_add.2 (.inr (hkeep l hl))) ⟨hhost, hI, by rwa [add_left_comm] at hl⟩
  rw [onStore_eq, onStore_eq]
  have hjoin (P : Multiset Link) (st st' : Store σ)
      (hst : (storeBridge K I).joined (P + (laneLinks Z M S + keep)) st st') :
      Machine.Joined K s I (P + keep) ⟨st.heap, mc.frame, st.host⟩ ⟨st'.heap, mc'.frame, st'.host⟩ := by
    obtain ⟨hhost, hI, hl⟩ := hst
    refine ⟨hhost, hI, V, V', n, hf, hf', Z, M, S, hp.heaps st.heap st'.heap, hZ, ?_⟩
    rwa [add_left_comm] at hl
  refine Agreeing.within hagree (fun st ho => ?_) (fun st ho => ?_) hjoin
    fun _ _ _ _ ⟨P, hP, hl⟩ => ⟨P, hP, hjoin P _ _ hl⟩
  · have ho : MethodJit.Owns (lefts (laneLinks Z M S + keep)) st.heap := ho
    rw [lefts_add, hp.lefts_eq, add_comm] at ho
    exact .of_covers (ℓ := V.lane st.heap) (hf.covers st.heap) rfl ho
  · have ho : MethodJit.Owns (rights (laneLinks Z M S + keep)) st.heap := ho
    rw [rights_add, hp.rights_eq, add_comm] at ho
    exact .of_covers (ℓ := V'.lane st.heap) (hf'.covers st.heap) rfl ho

end Machine

/-! ## Functions -/

theorem onStoredHeap_eq (x : HeapM α) (st : Store σ) :
    onStoredHeap x st = within (fun h => ⟨h, st.host⟩) (x st.heap) := by
  obtain ⟨h, s⟩ := st
  simp only [onStoredHeap]
  cases x h <;> rfl

theorem twin_onStoredHeap {x : HeapM α} {y : HeapM β} (h : Twin (heapBridge K) borrow pre t x y R) :
    Twin (storeBridge K I) borrow pre t (onStoredHeap x) (onStoredHeap y) R := by
  intro keep st st' hkeep hj
  obtain ⟨hhost, hI, hl⟩ := hj
  rw [onStoredHeap_eq, onStoredHeap_eq]
  exact Agreeing.within (h keep st.heap st'.heap hkeep hl) (fun _ ho => ho) (fun _ ho => ho)
    (fun _ _ _ hl => ⟨hhost, hI, hl⟩) fun _ _ _ _ ⟨P, hP, hl⟩ => ⟨P, hP, hhost, hI, hl⟩

theorem twin_apply (hhost : Faithful K I G host) (hG : ∀ l ∈ G, l ∈ borrow)
    (hl : Link.pair v w ∈ borrow) (hcs : ∀ p ∈ cs, Link.pair p.1 p.2 ∈ borrow) (name : String)
    (c : Callable) :
    Twin (storeBridge K I) borrow 0 True (apply host name c v (cs.map (·.1)))
      (apply host name c w (cs.map (·.2))) Gives := by
  have hlent (l : Link) (hm : l ∈ Link.pair v w :: (cs.map fun p => Link.pair p.1 p.2) ++ G) : l ∈ borrow := by
    rcases List.mem_append.1 hm with hm | hm
    · rcases List.mem_cons.1 hm with rfl | hm
      · exact hl
      · obtain ⟨p, hp, rfl⟩ := List.mem_map.1 hm
        exact hcs p hp
    · exact hG l hm
  cases c with
  | native n => exact twin_onStoredHeap (twin_native hl hcs n name)
  | method engine index => exact (hhost (some engine) index v w cs).mono hlent id fun _ _ _ hP => hP
  | foreign index => exact (hhost none index v w cs).mono hlent id fun _ _ _ hP => hP

namespace Machine

/-- The error of a call of what is no function. -/
theorem twin_refuse (hl : Link.pair v w ∈ borrow) (text : String) {R : α → β → Multiset Link → Prop} :
    Twin (machineBridge K s I) borrow 0 True
      (onHeap do raise "TypeError" ((← kindOf v).scriptName ++ text))
      (onHeap do raise "TypeError" ((← kindOf w).scriptName ++ text)) R := by
  have hreads : Reads K [Link.pair v w] (kindOf v) (kindOf w) := .kindOf (by simp)
  exact twin_onHeap (hreads.bind_twin (by simpa using hl) fun k => twin_raise _ _)

/-- The arguments of a call are given up at its end. -/
theorem twin_givingUp {x : Act σ α} {y : Act σ β} {cs : List (Value × Value)}
    (h : Twin (machineBridge K s I) ((cs.map fun p => Link.pair p.1 p.2) ++ borrow) 0 t x y R) :
    Twin (machineBridge K s I) borrow (pairLinks cs) t (ensuring x (onHeap (releaseEach (cs.map (·.1)))))
      (ensuring y (onHeap (releaseEach (cs.map (·.2))))) R := by
  have hcleans : Cleans (machineBridge K s I) (pairLinks cs) (onHeap (releaseEach (cs.map (·.1))))
      (onHeap (releaseEach (cs.map (·.2)))) := cleans_onHeap cleans_releaseEach
  have htwin := Twin.ensuring _ (machineBridge_plain K s I) h hcleans
  rwa [add_zero] at htwin

theorem twin_callValue (hhost : Faithful K I G host) (hG : ∀ l ∈ G, l ∈ borrow) (fn fn' r r' : Value)
    (cs : List (Value × Value)) :
    Twin (machineBridge K s I) borrow ({Link.pair fn fn'} + ({Link.pair r r'} + pairLinks cs)) True
      (callValue host fn r (cs.map (·.1))) (callValue host fn' r' (cs.map (·.2))) Gives := by
  refine twin_consumingAct (twin_consumingAct ?_)
  refine twin_givingUp ?_
  refine Twin.get fun keep mc mc' hkeep hj => ?_
  obtain ⟨G', ψ, ψ', Q, hb, hQ⟩ := hj.exists_bond
  have hc : Counterpart ψ ψ' mc.heap mc'.heap fn fn' :=
    hb.counterpart (hQ _ (Multiset.mem_add.2 (.inr (hkeep _ (by simp)))))
  rcases hb.cases_body hc with ⟨hv, hw⟩ | ⟨b, hv, hw, -⟩ | ⟨es, es', wr, k, k', hv, hw, -⟩ | ⟨xs, xs', hv, hw, -⟩
  · simp only [hv, hw]
    exact twin_refuse (by simp) _
  · simp only [hv, hw]
    cases b with
    | function name c =>
      refine twin_onStore (twin_apply hhost (fun l hl => ?_) (by simp) (fun p hp => ?_) name c)
      · simp [hG l hl]
      · exact List.mem_append.2 (.inl (List.mem_map_of_mem hp))
    | _ => exact twin_refuse (by simp) _
  · simp only [hv, hw]
    exact twin_refuse (by simp) _
  · simp only [hv, hw]
    exact twin_refuse (by simp) _

end Machine

/-! ## Constructions -/

/-- The heap once an object is abandoned. -/
def Heap.abandon (h : Heap) (v : Value) : Heap := { h with abandoned := v :: h.abandoned }

/-- Who owns what does not depend on what was abandoned. -/
theorem Accounted.abandon {owned : Multiset Value} (hac : Accounted owned h) (v : Value) :
    Accounted owned (h.abandon v) :=
  ⟨hac.counts, hac.empty, hac.bound, hac.makers⟩

theorem Represents.abandon {G : Graph} {ψ : Naming} {owned : Multiset Value}
    (hr : Represents G ψ owned h) (v : Value) : Represents G ψ owned (h.abandon v) :=
  ⟨hr.accounted.abandon v, hr.named, hr.injective, hr.onto, hr.shapes, hr.remains, hr.buried⟩

theorem Owns.abandon {own : Multiset Value} (ho : Owns own h) (v : Value) : Owns own (h.abandon v) := by
  obtain ⟨hbound, leak, hac⟩ := ho
  exact ⟨hbound, leak, hac.abandon v⟩

/-- Objects that are linked can be abandoned. -/
theorem Linked.abandon (hl : Linked K ({Link.pair v w} + P) h h') : Linked K P (h.abandon v) (h'.abandon w) := by
  obtain ⟨G, ψ, ψ', A, hb, hA, hA'⟩ := hl
  refine ⟨G, ψ, ψ', (v, w) :: A, ?_, ?_, ?_⟩
  · rw [add_left_comm, ← add_assoc] at hb
    exact ⟨hb.left.abandon v, hb.right.abandon w, hb.agrees, hb.size_left, hb.size_right, hb.names⟩
  · rw [Heap.abandon, hA]
    rfl
  · rw [Heap.abandon, hA']
    rfl

namespace Machine

def abandon (mc : Machine σ) (v : Value) : Machine σ := { mc with heap := mc.heap.abandon v }

theorem abandoning_ok {x : Act σ α} {mc m₁ : Machine σ} {a : α} (hx : x mc = .ok a m₁) :
    abandoning v x mc = .ok a m₁ := by
  simp only [abandoning, hx]

theorem abandoning_error {x : Act σ α} {mc m₁ : Machine σ} {e : Fault} (hx : x mc = .error e m₁) :
    abandoning v x mc = .error e (m₁.abandon v) := by
  simp only [abandoning, hx]
  rfl

theorem Owns.abandon {mc : Machine σ} {own : Multiset Value} (ho : mc.Owns own) (v : Value) :
    (mc.abandon v).Owns own := by
  obtain ⟨L, O, S, hf, ho⟩ := ho
  exact ⟨L, O, S, hf, ho.abandon v⟩

theorem Joined.abandon {mc mc' : Machine σ} (hj : Joined K s I (P + ({Link.pair v w} + Q)) mc mc') :
    Joined K s I (P + Q) (mc.abandon v) (mc'.abandon w) := by
  obtain ⟨hhost, hI, V, V', n, hf, hf', Z, M, S, hp, hZ, hl⟩ := hj
  refine ⟨hhost, hI, V, V', n, hf, hf', Z, M, S, hp.heaps _ _, hZ, Linked.abandon ?_⟩
  rwa [add_left_comm P, add_left_comm] at hl

/-- A construction borrows the new objects, which are abandoned if it fails. -/
theorem twin_abandoning {x : Act σ α} {y : Act σ β}
    (hxy : Twin (machineBridge K s I) (Link.pair v w :: borrow) 0 t x y R) :
    Twin (machineBridge K s I) borrow {Link.pair v w} t (abandoning v x) (abandoning w y) fun a b P =>
      ∃ P₀, R a b P₀ ∧ P = P₀ + {Link.pair v w} := by
  intro keep mc mc' hkeep hj
  have hagree := hxy ({Link.pair v w} + keep) mc mc' (fun l hl => by
      rcases List.mem_cons.1 hl with rfl | hl
      · simp
      · simp [hkeep l hl])
    (by rwa [zero_add])
  have hleft (m₁ : Machine σ) (ho : m₁.Owns (lefts ({Link.pair v w} + keep))) :
      (m₁.abandon v).Owns (lefts keep) := by
    rw [lefts_add, add_comm] at ho
    exact ho.mono.abandon v
  have hright (m₁ : Machine σ) (ho : m₁.Owns (rights ({Link.pair v w} + keep))) :
      (m₁.abandon w).Owns (rights keep) := by
    rw [rights_add, add_comm] at ho
    exact ho.mono.abandon w
  generalize hx : x mc = rx at hagree
  generalize hy : y mc' = ry at hagree
  cases hagree.cases with
  | ok hr =>
    obtain ⟨P, hP, hj⟩ := hr
    rw [← add_assoc] at hj
    rw [abandoning_ok hx, abandoning_ok hy]
    exact ⟨_, ⟨P, hP, rfl⟩, hj⟩
  | bounds hl =>
    rw [abandoning_error hx]
    exact .of_bounds (hleft _ hl)
  | endless hl hr | exhausted hl hr =>
    rw [abandoning_error hx, abandoning_error hy]
    exact ⟨hleft _ hl, hright _ hr⟩
  | thrown ht hj =>
    rw [abandoning_error hx, abandoning_error hy]
    exact ⟨ht, Joined.abandon hj⟩
  | code ht hj =>
    rw [← zero_add ({Link.pair v w} + keep)] at hj
    have hj := Joined.abandon hj
    rw [zero_add] at hj
    rw [abandoning_error hx, abandoning_error hy]
    exact ⟨ht, rfl, hj⟩

theorem twin_constructWith (hhost : Faithful K I G host) (hG : ∀ l ∈ G, l ∈ borrow) {a a' : Address}
    (hl : Link.pair (.ref a) (.ref a') ∈ borrow) (hcs : ∀ p ∈ cs, Link.pair p.1 p.2 ∈ borrow)
    (name : String) (c : Callable) :
    Twin (machineBridge K s I) borrow 0 True (constructWith host a name c (cs.map (·.1)))
      (constructWith host a' name c (cs.map (·.2))) Gives := by
  refine (twin_onHeap (twin_newObject hl)).bind fun this this' P hP => ?_
  subst hP
  have hcall : Twin (machineBridge K s I) (Link.pair this this' :: borrow) 0 True
      (onStore (apply host name c this (cs.map (·.1)))) (onStore (apply host name c this' (cs.map (·.2))))
      Gives :=
    twin_onStore (twin_apply hhost (fun l hl => List.mem_cons_of_mem _ (hG l hl)) List.mem_cons_self
      (fun p hp => List.mem_cons_of_mem _ (hcs p hp)) name c)
  refine (twin_abandoning hcall).bind fun result result' P hP => ?_
  obtain ⟨_, rfl, rfl⟩ := hP
  have hreads : Reads K [Link.pair result result'] (kindOf result) (kindOf result') := .kindOf (by simp)
  have hkind : Twin (machineBridge K s I) ([Link.pair result result'] ++ borrow) 0 False
      (onHeap (kindOf result)) (onHeap (kindOf result')) Same :=
    twin_onHeap (hreads.twin (by simp))
  have hnew : Twin (machineBridge K s I) borrow (0 + (↑[Link.pair result result'] + {Link.pair this this'})) True
      (do onHeap (release result); pure this) (do onHeap (release result'); pure this') Gives := by
    rw [zero_add]
    refine (twin_onHeap twin_release).bind_rest fun _ _ P hP => ?_
    rw [hP, zero_add]
    exact Twin.pure rfl
  have hgiven : Twin (machineBridge K s I) borrow (0 + (↑[Link.pair result result'] + {Link.pair this this'})) True
      (do onHeap (release this); pure result) (do onHeap (release this'); pure result') Gives := by
    rw [zero_add, add_comm]
    refine (twin_onHeap twin_release).bind_rest fun _ _ P hP => ?_
    rw [hP, zero_add]
    exact Twin.pure rfl
  refine Twin.bind_lend [Link.pair result result'] hkind fun k _ P hP => ?_
  obtain ⟨rfl, rfl⟩ := hP
  cases k with
  | object | array | function => exact hgiven
  | _ => exact hnew

theorem twin_constructValue (hhost : Faithful K I G host) (hG : ∀ l ∈ G, l ∈ borrow) (fn fn' : Value)
    (cs : List (Value × Value)) :
    Twin (machineBridge K s I) borrow ({Link.pair fn fn'} + pairLinks cs) True
      (constructValue host fn (cs.map (·.1))) (constructValue host fn' (cs.map (·.2))) Gives := by
  refine twin_consumingAct ?_
  refine twin_givingUp ?_
  refine Twin.get fun keep mc mc' hkeep hj => ?_
  obtain ⟨G', ψ, ψ', Q, hb, hQ⟩ := hj.exists_bond
  have hc : Counterpart ψ ψ' mc.heap mc'.heap fn fn' :=
    hb.counterpart (hQ _ (Multiset.mem_add.2 (.inr (hkeep _ (by simp)))))
  rcases hb.cases_body hc with ⟨hv, hw⟩ | ⟨b, hv, hw, -⟩ | ⟨es, es', wr, k, k', hv, hw, -⟩ | ⟨xs, xs', hv, hw, -⟩
  · simp only [hv, hw]
    exact twin_refuse (by simp) _
  · obtain ⟨a, -, rfl, -⟩ := hc.left.cell_of_body hv
    obtain ⟨a', -, rfl, -⟩ := hc.right.cell_of_body hw
    simp only [hv, hw]
    cases b with
    | function name c =>
      refine twin_constructWith hhost (fun l hl => ?_) (by simp) (fun p hp => ?_) name c
      · simp [hG l hl]
      · exact List.mem_append.2 (.inl (List.mem_map_of_mem hp))
    | _ => exact twin_refuse (by simp) _
  · simp only [hv, hw]
    exact twin_refuse (by simp) _
  · simp only [hv, hw]
    exact twin_refuse (by simp) _

end Machine

end MethodJit
