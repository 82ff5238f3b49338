import MethodJit.Proofs.PropertyOrder

/-!
# Which properties are seen

Reading a property takes it from the value, where it is stored or made on demand, or gives undefined because the
value has none. `Heap.source?` tells the two apart. Whether a value has a property is asked separately, by `in`
and by the search through the scopes. Both agree, with one exception: the name of a function can be read but is
not seen.
-/

namespace MethodJit

variable {σ : Type} {h : Heap} {v x y : Value} {name : String}

/-! ## Sources -/

/-- Where a property comes from: it is stored in the value, or made when it is read. -/
inductive PropertySource
  | stored (x : Value)
  | made (b : Body)
deriving DecidableEq

/-- A new reference to the property. -/
def PropertySource.fetch : PropertySource → HeapM Value
  | .stored x => shared x
  | .made b => alloc b

/-- What a value has under a name. -/
def Heap.source? (h : Heap) (v : Value) (name : String) : Option PropertySource :=
  match h.body? v with
  | some (.object table _) => (table.find? name).map .stored
  | some (.array elems) =>
    if name = "length" then some (.made (.int (.ofNat elems.size)))
    else ((arrayIndex? name).bind (elems[·]?)).map .stored
  | some (.string s) => if name = "length" then some (.made (.int (.ofNat s.length))) else none
  | some (.function text _) => if name = "name" then some (.made (.string text)) else none
  | _ => none

/-- A property as it is read: undefined stands for one that a value does not have. -/
def Heap.fetch (h : Heap) (v : Value) (name : String) : HeapM Value :=
  (h.source? v name).elim (pure .undefined) PropertySource.fetch

/-- Reading takes a property from its source, and gives undefined only if there is none. -/
theorem getProperty_eq_fetch (hbound : h.Bound) (v : Value) (name : String) :
    getProperty v name h = h.fetch v name h := by
  unfold getProperty Heap.fetch Heap.source?
  rw [get_bind]
  cases hb : h.body? v with
  | none => rfl
  | some b =>
    cases b with
    | object table maker =>
      simp only
      cases hx : table.find? name with
      | none => rfl
      | some x =>
        have hne : x ≠ .unbound := by
          rintro rfl
          exact hbound.notMem hb (lookup_mem hx)
        simp only [isBound_of_ne hne, if_true]
        rfl
    | array elems =>
      simp only
      split
      · rfl
      · cases arrayIndex? name with
        | none => rfl
        | some i =>
          simp only [Option.bind_some]
          cases elems[i]? <;> rfl
    | string s | function text c =>
      simp only
      split <;> rfl
    | _ => rfl

/-! ## What is seen -/

/-- The value is a function, and the name is that of its name. -/
def Heap.HidesName (h : Heap) (v : Value) (name : String) : Prop :=
  (∃ text c, h.body? v = some (.function text c)) ∧ name = "name"

/-- The value has a property that is not hidden. -/
def Heap.Sees (h : Heap) (v : Value) (name : String) : Prop :=
  (h.source? v name).isSome ∧ ¬h.HidesName v name

theorem has_eq_isSome (t : PropertyTable) (name : String) : t.has name = (t.find? name).isSome := by
  rw [Bool.eq_iff_iff]
  unfold PropertyTable.find?
  rw [lookup_isSome]
  simp [PropertyTable.has]

theorem sees_of_body {b : Body} (hb : h.body? v = some b) (hne : ∀ text c, b ≠ .function text c) :
    h.Sees v name ↔ (h.source? v name).isSome := by
  refine ⟨And.left, fun hs => ⟨hs, ?_⟩⟩
  rintro ⟨⟨text, c, hf⟩, -⟩
  exact hne text c (Option.some.inj (hb.symm.trans hf))

/-- A value is asked for exactly those properties that it has and does not hide. -/
theorem has_iff_sees (h : Heap) (v : Value) (name : String) : h.has v name = true ↔ h.Sees v name := by
  cases hb : h.body? v with
  | none => simp [Heap.has, Heap.Sees, Heap.source?, hb]
  | some b =>
    cases b with
    | object table maker =>
      rw [sees_of_body hb (by simp)]
      simp [Heap.has, Heap.source?, hb, has_eq_isSome]
    | array elems =>
      rw [sees_of_body hb (by simp)]
      simp only [Heap.has, Heap.source?, hb]
      by_cases hlength : name = "length"
      · simp [hlength]
      · simp only [hlength, decide_false, Bool.false_or, if_false]
        cases arrayIndex? name <;> simp
    | string s =>
      rw [sees_of_body hb (by simp)]
      simp only [Heap.has, Heap.source?, hb]
      by_cases hlength : name = "length" <;> simp [hlength]
    | function text c =>
      refine ⟨fun hhas => ?_, fun hsees => ?_⟩
      · simp [Heap.has, hb] at hhas
      · refine absurd ⟨⟨text, c, hb⟩, ?_⟩ hsees.2
        have hsome := hsees.1
        simp only [Heap.source?, hb] at hsome
        by_contra hne
        simp [hne] at hsome
    | int n | uint n | number n => simp [Heap.has, Heap.Sees, Heap.source?, hb]

/-! ## The search through the scopes -/

/-- The values that are searched for a property: the scopes from the innermost on, and the global object. -/
def Frame.searched (f : Frame) : List Value := f.scope.toList.reverse ++ [f.global]

theorem findScope?_searched (name : String) (mc : Machine σ) :
    findScope? name mc = .ok (mc.frame.searched.find? fun v => mc.heap.has v name) mc := by
  unfold findScope? Frame.searched
  rw [List.find?_append, List.find?_singleton]
  cases mc.frame.scope.toList.reverse.find? fun v => mc.heap.has v name <;> rfl

/-- The first value that sees the property is found. -/
theorem findScope_of_sees {mc : Machine σ} {inner outer : List Value}
    (hsearched : mc.frame.searched = inner ++ x :: outer) (hinner : ∀ y ∈ inner, ¬mc.heap.Sees y name)
    (hx : mc.heap.Sees x name) : findScope name mc = .ok x mc := by
  have hfound : (mc.frame.searched.find? fun v => mc.heap.has v name) = some x := by
    rw [hsearched, List.find?_append, List.find?_eq_none.2 fun y hy hhas => hinner y hy ((has_iff_sees ..).1 hhas),
      List.find?_cons, (has_iff_sees ..).2 hx]
    rfl
  unfold findScope
  rw [bind_of_ok (findScope?_searched name mc), hfound]
  rfl

/-- The error that is thrown if a name is not found, and the heap with its text. -/
def notDefined {α : Type} (h : Heap) (f : Frame) (s : σ) (name : String) : EStateM.Result Fault (Machine σ) α :=
  .error (.thrown (.ref h.cells.size))
    ⟨h.extended (.string ("ReferenceError: " ++ (name ++ " is not defined"))), f, s⟩

theorem findScope_of_forall {f : Frame} {s : σ} (hnone : ∀ y ∈ f.searched, ¬h.Sees y name) :
    findScope name ⟨h, f, s⟩ = notDefined h f s name := by
  unfold findScope
  rw [bind_of_ok (findScope?_searched name _),
    List.find?_eq_none.2 fun y hy hhas => hnone y hy ((has_iff_sees ..).1 hhas)]
  rfl

/-- What the routines that search the scopes for a name do in a frame: they find the first value that sees the
property, and throw an error if there is none. -/
structure Frame.SearchesScopes (h : Heap) (f : Frame) (name : String) (host : Host σ) (i : Int32) (s : σ) : Prop where
  found : ∀ inner x outer, f.searched = inner ++ x :: outer → (∀ y ∈ inner, ¬h.Sees y name) → h.Sees x name →
    IndexedAction.findPropStrict.run host i ⟨h, f, s⟩ = pushShared x ⟨h, f, s⟩ ∧
    IndexedAction.getLex.run host i ⟨h, f, s⟩ = (onHeap (h.fetch x name) >>= push) ⟨h, f, s⟩
  missing : (∀ y ∈ f.searched, ¬h.Sees y name) → ∀ r ∈ [IndexedAction.findPropStrict, .getLex],
    r.run host i ⟨h, f, s⟩ = notDefined h f s name

theorem searchesScopes (hbound : h.Bound) {f : Frame} {host : Host σ} {i : Int32} {s : σ}
    (hname : nameConstant i ⟨h, f, s⟩ = .ok name ⟨h, f, s⟩) : f.SearchesScopes h name host i s where
  found inner x outer hsearched hinner hx := by
    have hfind : findScope name ⟨h, f, s⟩ = .ok x ⟨h, f, s⟩ := findScope_of_sees hsearched hinner hx
    refine ⟨(bind_of_ok hname).trans (bind_of_ok hfind), ?_⟩
    refine (bind_of_ok hname).trans ((bind_of_ok hfind).trans ?_)
    have hread : (onHeap (getProperty x name) : Act σ Value) ⟨h, f, s⟩ = onHeap (h.fetch x name) ⟨h, f, s⟩ := by
      simp only [onHeap, getProperty_eq_fetch hbound]
    cases hr : (onHeap (h.fetch x name) : Act σ Value) ⟨h, f, s⟩ with
    | ok y mc => rw [bind_of_ok (hread.trans hr), bind_of_ok hr]
    | error ε mc => rw [bind_of_error (hread.trans hr), bind_of_error hr]
  missing hnone r hr := by
    have hfind : findScope name ⟨h, f, s⟩ = notDefined h f s name := findScope_of_forall hnone
    rcases List.mem_pair.1 hr with rfl | rfl
    all_goals exact (bind_of_ok hname).trans (bind_of_error hfind)

theorem consuming_congr {α : Type} {body body' : HeapM α} (hsame : body h = body' h) (v : Value) :
    consuming v body h = consuming v body' h := by
  unfold consuming
  by_cases hv : v.isBound
  · simp only [if_pos hv, ensuring, hsame]
  · simp only [if_neg hv]

/-- `in` tells what is seen. -/
theorem inObject_of_text {a : Value} (htext : h.toText a = .ok name) {b : Bool} (hb : b = true ↔ h.Sees v name) :
    Binary.inObject.run a v h = consuming a (consuming v (pure (.bool b))) h := by
  have hhas : h.has v name = b := Bool.eq_iff_iff.2 ((has_iff_sees h v name).trans hb.symm)
  refine consuming_congr (consuming_congr ?_ v) a
  have hread : textOf a h = .ok name h := by
    unfold textOf
    rw [htext]
  rw [bind_of_ok hread, get_bind, hhas]

/-- Reading a property takes it from its source, and a value has exactly the properties with a source, but for the
name of a function. So `in` and the search through the scopes see whatever can be read from a value, except
that. -/
theorem sees_what_is_read (hbound : h.Bound) (name : String) :
    (∀ v, getProperty v name h = h.fetch v name h) ∧
    (∀ v, h.has v name = true ↔ (h.source? v name).isSome ∧ ¬h.HidesName v name) ∧
    (∀ a v b, h.toText a = .ok name → (b = true ↔ h.Sees v name) →
      Binary.inObject.run a v h = consuming a (consuming v (pure (.bool b))) h) ∧
    ∀ (σ : Type) (host : Host σ) (f : Frame) (s : σ) (i : Int32),
      nameConstant i ⟨h, f, s⟩ = .ok name ⟨h, f, s⟩ → f.SearchesScopes h name host i s :=
  ⟨fun v => getProperty_eq_fetch hbound v name, fun v => has_iff_sees h v name,
    fun _ _ _ htext hb => inObject_of_text htext hb, fun _ _ _ _ _ hname => searchesScopes hbound hname⟩

/-- A heap with a function. -/
def Heap.withFunction : Heap where
  cells := #[⟨1, .function "f" (.native .nothing)⟩]

/-- The name of a function is read but not seen. -/
theorem sees_what_is_read_function : Heap.withFunction.Bound ∧
    getProperty (.ref 0) "name" Heap.withFunction = .ok (.ref 1) (Heap.withFunction.extended (.string "f")) ∧
    Heap.withFunction.has (.ref 0) "name" = false := by
  have hbound : Heap.withFunction.Bound := by
    intro a c hc
    rcases a with _ | a <;> simp [Heap.withFunction] at hc
    subst hc
    exact List.not_mem_nil
  obtain ⟨hread, hhas, -⟩ := sees_what_is_read hbound "name"
  refine ⟨hbound, (hread _).trans rfl, Bool.eq_false_iff.2 fun htrue => ?_⟩
  exact ((hhas _).1 htrue).2 ⟨⟨_, _, rfl⟩, rfl⟩

end MethodJit
