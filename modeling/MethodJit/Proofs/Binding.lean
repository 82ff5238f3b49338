import MethodJit.Proofs.Accounting
import MethodJit.Proofs.Frames

/-!
# Binding of arguments

`bindArguments` fills the locals of a new frame: the receiver, the parameters, the array of arguments if
there is one, and undefined. Counts of a method wrap, so that a method can pass as valid although the
number of locals to bind has overflowed. For the other valid methods whose locals and operands can be
made, all locals are bound; for those it fails.
-/

namespace MethodJit

variable {σ : Type} {f : Frame} {h h' : Heap} {s : σ} {m : Method} {receiver v : Value} {args L A B C : List Value}

/-- A frame with other locals. -/
def Frame.withLocals (f : Frame) (L : List Value) : Frame := { f with firstSlots := L.toArray }

theorem writeLocal_withLocals (hloc : f.locals = some .first) {b : Value}
    (hlt : (A ++ b :: B).length < 2 ^ 63) :
    writeLocal (.ofNat A.length) v (⟨h, f.withLocals (A ++ b :: B), s⟩ : Machine σ) =
      .ok () ⟨h, f.withLocals (A ++ v :: B), s⟩ := by
  rw [List.length_append, List.length_cons] at hlt
  have hsize : A.length < (f.withLocals (A ++ b :: B)).firstSlots.size := by simp [Frame.withLocals]
  have hset : (f.withLocals (A ++ b :: B)).setLocal A.length v = f.withLocals (A ++ v :: B) := by
    simp [Frame.withLocals, Frame.setLocal]
  rw [← hset]
  exact writeLocal_ok hloc hsize (by omega)

theorem forM_onHeap_ok {g : Value → HeapM Unit} (hok : L.forM g h = .ok () h') :
    (L.forM fun v => onHeap (g v)) (⟨h, f, s⟩ : Machine σ) = .ok () ⟨h', f, s⟩ := by
  induction L generalizing h with
  | nil =>
    cases hok
    rfl
  | cons v L ih =>
    obtain ⟨_, h₁, hv, hrest⟩ := bind_eq_ok (x := g v) (f := fun _ => L.forM g) hok
    exact (bind_of_ok (onHeap_ok hv)).trans (ih hrest)

theorem bindFrom_ok (hloc : f.locals = some .first) (hret : C.forM retain h = .ok () h')
    (hfit : C.length ≤ B.length) (hlt : (A ++ B).length < 2 ^ 63) :
    bindFrom (.ofNat A.length) C (⟨h, f.withLocals (A ++ B), s⟩ : Machine σ) =
      .ok () ⟨h', f.withLocals (A ++ C ++ B.drop C.length), s⟩ := by
  induction C generalizing A B h with
  | nil =>
    cases hret
    rw [List.append_nil, List.length_nil, List.drop_zero]
    rfl
  | cons v C ih =>
    obtain ⟨_, h₁, hv, hrest⟩ := bind_eq_ok (x := retain v) (f := fun _ => C.forM retain) hret
    cases B with
    | nil => simp at hfit
    | cons b B =>
      have hnext : Int64.ofNat A.length + 1 = .ofNat (A ++ [v]).length := by
        rw [List.length_append, List.length_singleton, Int64.ofNat_add]
        rfl
      have hih := ih (A := A ++ [v]) hrest (by simpa using hfit) (by simpa using hlt)
      rw [List.append_assoc, List.singleton_append] at hih
      rw [bindFrom, bind_of_ok (onHeap_ok hv), bind_of_ok (writeLocal_withLocals hloc hlt), hnext, hih]
      simp

/-! ## All locals -/

/-- The arguments in the array of arguments. -/
def Method.collected (m : Method) (args : List Value) : List Value :=
  if m.flags.needArguments then args else args.drop m.params.toNatClampNeg

/-- Makes the array of arguments, if there is one. -/
def collectHeap (m : Method) (args : List Value) : HeapM (List Value) :=
  if m.collects then do
    (m.collected args).forM retain
    let a ← newArray (m.collected args).toArray
    pure [a]
  else pure []

/-- What binding does to the heap. -/
def bindHeap (m : Method) (receiver : Value) (args : List Value) : HeapM (List Value) := do
  retain receiver
  (parameterValues m.params.toNatClampNeg args).forM retain
  collectHeap m args

/-- The number of locals that are bound to something other than undefined, if it does not wrap. -/
def Method.boundCount (m : Method) : Nat := 1 + m.params.toNatClampNeg + if m.collects then 1 else 0

/-- The first `n` locals, once they are bound. -/
def Method.boundLocals (m : Method) (receiver : Value) (args array : List Value) (n : Nat) : List Value :=
  receiver :: parameterValues m.params.toNatClampNeg args ++ array ++
    List.replicate (n - m.boundCount) .undefined

theorem length_parameterValues (n : Nat) (args : List Value) : (parameterValues n args).length = n := by
  rw [parameterValues, List.length_append, List.length_take, List.length_replicate]
  omega

theorem one_add_params (hp : 0 ≤ m.params) : 1 + m.params = .ofNat (1 + m.params.toNatClampNeg) := by
  rw [Int64.ofNat_add, ← ofNat_toNatClampNeg hp]
  rfl

theorem forM_retain_undefined (n : Nat) : (List.replicate n Value.undefined).forM retain h = .ok () h := by
  induction n with
  | zero => rfl
  | succ n ih => exact ih

theorem bindRest_ok (hloc : f.locals = some .first) (hlt : (A ++ B).length < 2 ^ 63) :
    bindRest (A ++ B).length (.ofNat A.length) (⟨h, f.withLocals (A ++ B), s⟩ : Machine σ) =
      .ok () ⟨h, f.withLocals (A ++ List.replicate B.length .undefined), s⟩ := by
  rw [List.length_append] at hlt
  have hn : A.length < 2 ^ 63 := by omega
  have hbind := bindFrom_ok (A := A) (B := B) (s := s) hloc (forM_retain_undefined (h := h) B.length)
    (by simp) (by simpa using hlt)
  rw [bindRest, if_neg (not_ofNat_neg hn), toNatClampNeg_ofNat hn, List.length_append,
    Nat.add_sub_cancel_left, hbind]
  simp

theorem collectedArguments_eq (hp : 0 ≤ m.params) : collectedArguments m args = some (m.collected args) := by
  unfold collectedArguments Method.collected
  split
  · rfl
  · rw [if_neg (Int64.not_lt.2 hp)]

theorem bindCollected_ok (hloc : f.locals = some .first) (hp : 0 ≤ m.params)
    (hA : A.length = 1 + m.params.toNatClampNeg) (hB : m.boundCount ≤ (A ++ B).length)
    (hlt : (A ++ B).length < 2 ^ 63) (hheap : collectHeap m args h = .ok C h') :
    bindCollected m args (⟨h, f.withLocals (A ++ B), s⟩ : Machine σ) =
        .ok (.ofNat (A ++ C).length) ⟨h', f.withLocals (A ++ C ++ B.drop C.length), s⟩ ∧
      (A ++ C).length = m.boundCount := by
  have hslot := one_add_params hp
  rw [← hA] at hslot
  unfold Method.boundCount at hB ⊢
  rw [List.length_append] at hB hlt
  cases hc : m.collects with
  | false =>
    rw [collectHeap, hc, if_neg Bool.false_ne_true] at hheap
    cases hheap
    have harg : ¬0 ≤ m.argumentsSlot := by
      rw [Method.argumentsSlot, hc, if_neg Bool.false_ne_true]
      decide
    rw [bindCollected, if_neg harg, hslot, List.append_nil, List.length_nil, List.drop_zero, hA]
    exact ⟨rfl, rfl⟩
  | true =>
    rw [collectHeap, hc, if_pos rfl] at hheap
    obtain ⟨_, h₁, hret, hheap⟩ := bind_eq_ok hheap
    cases hheap
    have harg : m.argumentsSlot = .ofNat A.length := by rw [Method.argumentsSlot, hc, if_pos rfl, hslot]
    rw [hc, if_pos rfl] at hB
    cases B with
    | nil => simp only [List.length_nil] at hB; omega
    | cons b B =>
      rw [bindCollected, harg, if_pos (ofNat_nonneg (by omega)), collectedArguments_eq hp, hslot]
      simp only
      have hnew : onHeap (newArray (m.collected args).toArray) (⟨h₁, f.withLocals (A ++ b :: B), s⟩ : Machine σ) =
          .ok (.ref h₁.cells.size) ⟨_, f.withLocals (A ++ b :: B), s⟩ := onHeap_ok rfl
      have hnext : Int64.ofNat A.length + 1 = .ofNat (A.length + 1) := by rw [Int64.ofNat_add]; rfl
      rw [bind_of_ok (forM_onHeap_ok hret), bind_of_ok hnew,
        bind_of_ok (writeLocal_withLocals hloc (by rwa [List.length_append])), hnext, List.append_assoc]
      simp only [List.length_append, List.length_singleton, List.drop_succ_cons, List.drop_zero,
        List.singleton_append, if_true, hA]
      exact ⟨rfl, trivial⟩

theorem bindArguments_ok (hloc : f.locals = some .first) (hp : 0 ≤ f.method.params)
    (hcount : f.method.boundCount ≤ L.length) (hlt : L.length < 2 ^ 63)
    (hheap : bindHeap f.method f.receiver f.args h = .ok C h') :
    bindArguments (⟨h, f.withLocals L, s⟩ : Machine σ) =
      .ok () ⟨h', f.withLocals (f.method.boundLocals f.receiver f.args C L.length), s⟩ := by
  unfold Method.boundLocals
  obtain ⟨_, h₁, hret₁, hheap⟩ := bind_eq_ok hheap
  obtain ⟨_, h₂, hret₂, hheap⟩ := bind_eq_ok hheap
  have hlen := length_parameterValues f.method.params.toNatClampNeg f.args
  generalize hP : parameterValues f.method.params.toNatClampNeg f.args = P at hret₂ hlen ⊢
  have hcount' := hcount
  unfold Method.boundCount at hcount'
  cases L with
  | nil =>
    rw [List.length_nil] at hcount'
    omega
  | cons b B =>
    rw [List.length_cons] at hlt hcount'
    have hsize : (f.withLocals (b :: B)).localSlots.size = (b :: B).length := by
      simp [Frame.localSlots, Frame.withLocals, Frame.slots, hloc]
    have hparams : ¬((b :: B).length : Int) < 1 + f.method.params.toInt := by
      have hge : f.method.params.toInt ≤ f.method.params.toNatClampNeg := Int.self_le_toNat _
      rw [List.length_cons]
      omega
    have hreceiver : writeLocal 0 f.receiver (⟨h₁, f.withLocals (b :: B), s⟩ : Machine σ) =
        .ok () ⟨h₁, f.withLocals (f.receiver :: B), s⟩ := writeLocal_withLocals (A := []) hloc hlt
    have hbind : bindFrom 1 P (⟨h₁, f.withLocals (f.receiver :: B), s⟩ : Machine σ) =
        .ok () ⟨h₂, f.withLocals (f.receiver :: P ++ B.drop P.length), s⟩ :=
      bindFrom_ok (A := [f.receiver]) hloc hret₂ (by omega) (by simpa using hlt)
    have hall : ((f.receiver :: P) ++ B.drop P.length).length = (b :: B).length := by
      simp only [List.length_append, List.length_cons, List.length_drop]
      omega
    obtain ⟨hcollect, hbound⟩ := bindCollected_ok (A := f.receiver :: P) (B := B.drop P.length) (s := s)
      hloc hp (by rw [List.length_cons, hlen, Nat.add_comm]) (hall.symm ▸ hcount) (hall.symm ▸ hlt) hheap
    have hcount₂ := hbound ▸ hcount
    simp only [List.length_append, List.length_cons] at hbound hcount₂
    have hlast : (f.receiver :: P ++ C ++ (B.drop P.length).drop C.length).length = (b :: B).length := by
      simp only [List.length_append, List.length_cons, List.length_drop]
      omega
    have hrest := bindRest_ok (A := f.receiver :: P ++ C) (B := (B.drop P.length).drop C.length) (h := h')
      (s := s) hloc (hlast.symm ▸ hlt)
    have hleft : ((B.drop P.length).drop C.length).length = (b :: B).length - f.method.boundCount := by
      simp only [List.length_drop, List.length_cons, ← hbound]
      omega
    rw [hlast] at hrest
    change (do
      onHeap (retain f.receiver)
      writeLocal 0 f.receiver
      bindParameters (f.withLocals (b :: B)).localSlots.size f.method f.args
      let n ← bindCollected f.method f.args
      bindRest (f.withLocals (b :: B)).localSlots.size n : Act σ Unit) _ = _
    rw [bind_of_ok (onHeap_ok hret₁), bind_of_ok hreceiver, hsize, bindParameters, if_neg hparams, hP,
      bind_of_ok hbind]
    rw [bind_of_ok hcollect, hrest, hleft]

/-! ## What the heap has to do with it -/

/-- What the cells hold, without the counts. -/
def Heap.bodies (h : Heap) : Array Body := h.cells.map Cell.body

theorem body?_ref (h : Heap) (a : Address) : h.body? (.ref a) = h.bodies[a]? := by
  simp [Heap.body?, Heap.cell?, Heap.bodies]

theorem kind?_congr (hb : h'.bodies = h.bodies) (v : Value) : h'.kind? v = h.kind? v := by
  cases v with
  | ref a => rw [Heap.kind?, Heap.kind?, body?_ref, body?_ref, hb]
  | _ => rfl

theorem size_bodies (h : Heap) : h.bodies.size = h.cells.size := by simp [Heap.bodies]

theorem retain_bodies (hv : h.kind? v ≠ none) : ∃ h', retain v h = .ok () h' ∧ h'.bodies = h.bodies := by
  cases v with
  | unbound => exact absurd rfl hv
  | ref a =>
    cases hc : h.cells[a]? with
    | none => exact absurd (by simp [Heap.kind?, Heap.body?, Heap.cell?, hc]) hv
    | some c =>
      refine ⟨h.setCell a { c with count := c.count + 1 }, by simp [retain, hc], ?_⟩
      refine Array.ext_getElem? fun b => ?_
      simp only [Heap.bodies, Array.getElem?_map, cells_setCell hc]
      by_cases hb : b = a
      · simp [hb, hc]
      · simp [hb]
  | _ => exact ⟨h, rfl, rfl⟩

theorem forM_retain_bodies (hL : ∀ v ∈ L, h.kind? v ≠ none) :
    ∃ h', L.forM retain h = .ok () h' ∧ h'.bodies = h.bodies := by
  induction L generalizing h with
  | nil => exact ⟨h, rfl, rfl⟩
  | cons v L ih =>
    obtain ⟨hv, hL⟩ := List.forall_mem_cons.1 hL
    obtain ⟨h₁, hok₁, hb₁⟩ := retain_bodies hv
    obtain ⟨h₂, hok₂, hb₂⟩ := ih fun w hw => kind?_congr hb₁ w ▸ hL w hw
    exact ⟨h₂, (bind_of_ok hok₁).trans hok₂, hb₂.trans hb₁⟩

theorem mem_parameterValues {n : Nat} (hv : v ∈ parameterValues n args) : v ∈ args ∨ v = .undefined := by
  rcases List.mem_append.1 hv with hv | hv
  · exact .inl (List.mem_of_mem_take hv)
  · exact .inr (List.eq_of_mem_replicate hv)

theorem mem_collected (hv : v ∈ m.collected args) : v ∈ args := by
  unfold Method.collected at hv
  split at hv
  · exact hv
  · exact List.mem_of_mem_drop hv

/-- Binding succeeds on the heap if the receiver and the arguments are values of it. -/
theorem bindHeap_ok (hvalues : ∀ v ∈ receiver :: args, h.kind? v ≠ none) :
    ∃ h', bindHeap m receiver args h = .ok (if m.collects then [.ref h.cells.size] else []) h' ∧
      (m.collects → h'.body? (.ref h.cells.size) = some (.array (m.collected args).toArray)) := by
  obtain ⟨hreceiver, hargs⟩ := List.forall_mem_cons.1 hvalues
  obtain ⟨h₁, hok₁, hb₁⟩ := retain_bodies hreceiver
  have hparams (v : Value) (hv : v ∈ parameterValues m.params.toNatClampNeg args) : h₁.kind? v ≠ none := by
    rw [kind?_congr hb₁]
    rcases mem_parameterValues hv with hv | rfl
    · exact hargs v hv
    · exact nofun
  obtain ⟨h₂, hok₂, hb₂⟩ := forM_retain_bodies hparams
  have hb := hb₂.trans hb₁
  rw [bindHeap, bind_of_ok hok₁, bind_of_ok hok₂, collectHeap]
  cases m.collects with
  | false => exact ⟨h₂, rfl, nofun⟩
  | true =>
    obtain ⟨h₃, hok₃, hb₃⟩ := forM_retain_bodies (L := m.collected args) (h := h₂)
      fun v hv => kind?_congr hb v ▸ hargs v (mem_collected hv)
    have hsize : h₃.cells.size = h.cells.size := by
      rw [← size_bodies, hb₃, hb, size_bodies]
    rw [if_pos rfl, if_pos rfl, bind_of_ok hok₃, ← hsize]
    exact ⟨_, rfl, fun _ => by simp [Heap.body?, Heap.cell?]⟩

/-! ## Valid methods -/

theorem length_boundLocals {array : Value} {n : Nat} (hn : m.boundCount ≤ n) :
    (m.boundLocals receiver args (if m.collects then [array] else []) n).length = n := by
  have harray : (if m.collects then [array] else []).length = if m.collects then 1 else 0 := by
    split <;> rfl
  unfold Method.boundLocals
  unfold Method.boundCount at hn ⊢
  simp only [List.length_append, List.length_cons, List.length_replicate, length_parameterValues, harray]
  omega

/-- The counts of a valid method. -/
theorem Method.of_problem? (hvalid : m.problem? = none) :
    0 ≤ m.params ∧ 0 ≤ m.maxStack ∧ m.boundSlots ≤ m.locals := by
  unfold Method.problem? at hvalid
  split at hvalid
  · cases hvalid
  split at hvalid
  · cases hvalid
  split at hvalid
  · cases hvalid
  split at hvalid
  · cases hvalid
  · rename_i hparams hstack _ hlocals
    exact ⟨Int64.not_lt.1 hparams, Int64.not_lt.1 hstack, Int64.not_lt.1 hlocals⟩

/-- The number of locals that are bound, unless it overflows. -/
theorem Method.boundSlots_eq (hp : 0 ≤ m.params) (hfit : m.boundCount < 2 ^ 63) :
    m.boundSlots = .ofNat m.boundCount := by
  have hslot := one_add_params hp
  unfold Method.boundCount at hfit ⊢
  unfold Method.boundSlots Method.argumentsSlot
  cases hc : m.collects with
  | false =>
    rw [if_neg Bool.false_ne_true, if_neg (by decide), hslot]
    rfl
  | true =>
    rw [hc, if_pos rfl] at hfit
    rw [if_pos rfl, if_pos rfl, hslot, if_pos (ofNat_nonneg (by omega)), Int64.ofNat_add (1 + _)]
    rfl

theorem Frame.make?_eq_some {global : Value} : Frame.make? m receiver args global = some f ↔
    0 ≤ m.locals ∧ 0 ≤ m.maxStack ∧ m.locals.toNatClampNeg ≤ Frame.slotLimit ∧
      m.maxStack.toNatClampNeg ≤ Frame.operandLimit ∧
      f = { firstSlots := .replicate m.locals.toNatClampNeg .unbound
            secondSlots := .replicate m.maxStack.toNatClampNeg .unbound
            receiver, args, global, method := m } := by
  unfold Frame.make?
  split
  · rename_i hbad
    refine ⟨nofun, fun ⟨h₁, h₂, h₃, h₄, _⟩ => ?_⟩
    rcases hbad with hbad | hbad | hbad | hbad
    · exact absurd hbad (Int64.not_lt.2 h₁)
    · exact absurd hbad (Int64.not_lt.2 h₂)
    · omega
    · omega
  · rename_i hgood
    simp only [not_or, Int64.not_lt, Nat.not_lt] at hgood
    obtain ⟨h₁, h₂, h₃, h₄⟩ := hgood
    simp only [h₁, h₂, h₃, h₄, true_and, Option.some.injEq, eq_comm]

end MethodJit
