import MethodJit.Proofs.ArrayElements
import MethodJit.Proofs.CallAccounts

/-!
# Constructions that fail

If the function of a construction throws, then nobody gives up the reference to the new object. So the new object
and whatever was stored in it stay alive, and the same is true of the new objects of all constructions that the
function had started itself. Nothing else is wrong with the heap: giving up these references would settle the
accounts.
-/

namespace MethodJit

open Compiler IR Interpreter Run

variable {h h' h₁ : Heap} {owned : Multiset Value} {w w' : World} {mc : Machine World} {V : View} {f : Frame}
  {v x fn this : Value} {args O left : List Value} {fuel depth : Nat} {name : String} {c : Callable} {i j : Int32}

/-! ## What is left behind -/

/-- The objects were left behind: to each of them there is a reference that nobody owns. -/
structure Heap.LeavesBehind (h h' : Heap) (left : List Value) (owned : Multiset Value) : Prop where
  abandoned : h'.abandoned = left ++ h.abandoned
  accounted : Accounted (↑left + owned) h'
  bound : .unbound ∉ ↑left + owned

namespace Heap.LeavesBehind

theorem exists_release (hl : h.LeavesBehind h' left ({v} + owned)) :
    ∃ h'', MethodJit.release v h' = .ok () h'' ∧ h.LeavesBehind h'' left owned := by
  have hv : v ≠ .unbound := fun heq => hl.bound (by simp [heq])
  have hac := hl.accounted
  rw [add_left_comm, add_comm] at hac
  obtain ⟨h'', hok, hac'', hr⟩ := hac.exists_release_relieved hv
  refine ⟨h'', hok, hr.abandoned.trans hl.abandoned, hac'', fun hu => hl.bound ?_⟩
  rw [add_left_comm]
  exact Multiset.mem_add.2 (.inr hu)

theorem exists_releaseEach (args : List Value) (hl : h.LeavesBehind h' left (↑args + owned)) :
    ∃ h'', MethodJit.releaseEach args h' = .ok () h'' ∧ h.LeavesBehind h'' left owned := by
  induction args generalizing h' with
  | nil =>
    rw [Multiset.coe_nil, zero_add] at hl
    exact ⟨h', rfl, hl⟩
  | cons x args ih =>
    rw [← Multiset.cons_coe, ← Multiset.singleton_add, add_assoc] at hl
    obtain ⟨h₁, hok, hl₁⟩ := hl.exists_release
    obtain ⟨h₂, hrest, hl₂⟩ := ih hl₁
    exact ⟨h₂, (bind_of_ok hok).trans hrest, hl₂⟩

theorem congr {owned' : Multiset Value} (hl : h.LeavesBehind h' left owned)
    (hsame : ∀ a, owned'.count (.ref a) = owned.count (.ref a)) : Accounted (↑left + owned') h' :=
  hl.accounted.congr fun a => by rw [Multiset.count_add, Multiset.count_add, hsame]

end Heap.LeavesBehind

/-! ## Functions that throw -/

theorem World.Proper.mono {owned' : Multiset Value} (hw : w.Proper owned) (hle : owned ≤ owned') : w.Proper owned' :=
  ⟨hw.methods, hw.compiled, fun e he => Multiset.mem_of_le hle (hw.globals e he), hw.foreign⟩

/-- A function that throws leaves behind what its own constructions made. -/
theorem exists_leavesBehind_of_apply (hw : w.Proper owned) (hac : Accounted owned h) (hbound : .unbound ∉ owned)
    (hthis : this ∈ owned) (hargs : ∀ v ∈ args, v ∈ owned)
    (hthrown : apply (Run.host fuel depth) name c this args ⟨h, w⟩ = .error (.thrown v) ⟨h', w'⟩) :
    ∃ left, h.LeavesBehind h' left ({v} + owned) := by
  have hborrow := hw.mem_callLinks hthis hargs
  have hpairs : ∀ p ∈ twice args, Link.pair p.1 p.2 ∈
      Link.pair this this :: ((twice args).map fun p => Link.pair p.1 p.2) ++ w.links := fun p hp =>
    List.mem_append_left _ (List.mem_cons_of_mem _ (List.mem_map.2 ⟨p, hp, rfl⟩))
  have htwin := twin_apply (faithful_host hw.methods h.origin w.links fuel depth)
    (fun l hl => List.mem_append_right _ hl) List.mem_cons_self hpairs name c
  rw [map_fst_twice, map_snd_twice] at htwin
  have hl : Linked h.origin (0 + ownLinks owned) h h := (zero_add (ownLinks owned)).symm ▸ hac.linked hbound
  have hagree := htwin (ownLinks owned) ⟨h, w⟩ ⟨h, w⟩ hborrow ⟨rfl, hw.hosts, hl⟩
  rw [hthrown] at hagree
  obtain ⟨-, -, -, hl'⟩ := hagree
  obtain ⟨left, habandoned, hac', hbound'⟩ := hl'.accounted
  rw [lefts_add, lefts_ownLinks] at hac' hbound'
  exact ⟨left, habandoned, hac', hbound'⟩

/-- A function is run with a new object and throws. -/
def ConstructorThrows (host : Host World) (h : Heap) (w : World) (fn : Value) (args : List Value) (v : Value) : Prop :=
  ∃ a name c st, fn = .ref a ∧ h.body? fn = some (.function name c) ∧
    apply host name c (.ref h.cells.size) args ⟨h.extended (.object {} (some a)), w⟩ = .error (.thrown v) st

theorem consumingAct_of_error {σ α : Type} {y : Act σ α} {mc mc₁ mc₂ : Machine σ} {ε : Fault} (hx : x ≠ .unbound)
    (hy : y mc = .error ε mc₁) (hrelease : onHeap (release x) mc₁ = .ok () mc₂) :
    consumingAct x y mc = .error ε mc₂ := by
  rw [consumingAct, if_pos (isBound_of_ne hx), ensuring_of_error hy, bind_of_ok hrelease]
  rfl

theorem ensuring_congr {σ α : Type} {y y' : Act σ α} {mc : Machine σ} (hsame : y mc = y' mc) (after : Act σ Unit) :
    ensuring y after mc = ensuring y' after mc := by
  simp only [ensuring, hsame]

theorem constructValue_of_function {σ : Type} {host : Host σ} {mc : Machine σ} {a : Address}
    (hbody : mc.heap.body? (.ref a) = some (.function name c)) : constructValue host (.ref a) args mc =
      consumingAct (.ref a) (ensuring (constructWith host a name c args) (onHeap (releaseEach args))) mc := by
  unfold constructValue consumingAct
  refine ensuring_congr (ensuring_congr ?_ _) _
  rw [get_bind]
  simp only [hbody]

/-- The new object of a construction that fails is left behind. -/
theorem exists_leavesBehind_of_construct (hw : w.Proper owned) (hac : Accounted (({fn} + ↑args) + owned) h)
    (hbound : .unbound ∉ ({fn} + ↑args) + owned) (hthrows : ConstructorThrows (Run.host fuel depth) h w fn args v) :
    ∃ left h' w', constructValue (Run.host fuel depth) fn args ⟨h, f, w⟩ = .error (.thrown v) ⟨h', f, w'⟩ ∧
      h.LeavesBehind h' (.ref h.cells.size :: left) ({v} + owned) := by
  obtain ⟨a, name, c, ⟨h₁, w₁⟩, rfl, hbody, hthrown⟩ := hthrows
  obtain ⟨this, hthis⟩ : ∃ this, this = Value.ref h.cells.size := ⟨_, rfl⟩
  rw [← hthis] at hthrown ⊢
  have hac₀ : Accounted ({this} + (({.ref a} + ↑args) + owned)) (h.extended (.object {} (some a))) := by
    rw [hthis]
    refine Accounted.alloc ?_ (by simp [Body.children]) fun k hk => ?_
    · rwa [Body.children, List.map_nil, Multiset.coe_nil, zero_add]
    · cases hk
      cases hc : h.cells[a]? with
      | none => simp [Heap.body?, Heap.cell?, hc] at hbody
      | some cell => exact (Array.getElem?_eq_some_iff.1 hc).1
  have hbound₀ : .unbound ∉ {this} + (({.ref a} + ↑args) + owned) := by
    rw [Multiset.mem_add, not_or]
    exact ⟨by simp [hthis], hbound⟩
  have hle : owned ≤ {this} + (({.ref a} + ↑args) + owned) := by
    rw [← add_assoc]
    exact Multiset.le_add_left _ _
  obtain ⟨left, hleft⟩ := exists_leavesBehind_of_apply (hw.mono hle) hac₀ hbound₀
    (Multiset.mem_add.2 (.inl (Multiset.mem_singleton_self this))) (fun x hx => by simp [hx]) hthrown
  -- The new object is abandoned, and the arguments and the function are given up.
  have hfailed : h.LeavesBehind (h₁.abandon this) (this :: left) (↑args + ({.ref a} + ({v} + owned))) := by
    have hsame : (↑(this :: left) + (↑args + ({.ref a} + ({v} + owned))) : Multiset Value) =
        ↑left + ({v} + ({this} + (({.ref a} + ↑args) + owned))) := by
      rw [← Multiset.cons_coe, ← Multiset.singleton_add]
      abel
    refine ⟨congrArg (this :: ·) hleft.abandoned, ?_, ?_⟩
    · rw [hsame]
      exact hleft.accounted.abandon this
    · rw [hsame]
      exact hleft.bound
  obtain ⟨h₂, hargs, hl₂⟩ := hfailed.exists_releaseEach args
  obtain ⟨h₃, hfn, hl₃⟩ := hl₂.exists_release
  refine ⟨left, h₃, w₁, ?_, hl₃⟩
  rw [constructValue_of_function hbody]
  refine consumingAct_of_error (by simp) ?_ (onHeap_ok hfn)
  have hnew : onHeap (newObject (some a)) (⟨h, f, w⟩ : Machine World) =
      .ok this ⟨h.extended (.object {} (some a)), f, w⟩ := by rw [hthis]; rfl
  have hrun : abandoning this (onStore (apply (Run.host fuel depth) name c this args))
      ⟨h.extended (.object {} (some a)), f, w⟩ = .error (.thrown v) ⟨h₁.abandon this, f, w₁⟩ := by
    have happly : onStore (apply (Run.host fuel depth) name c this args)
        ⟨h.extended (.object {} (some a)), f, w⟩ = .error (.thrown v) ⟨h₁, f, w₁⟩ := by
      rw [Machine.onStore_eq, hthrown]
      rfl
    exact Machine.abandoning_error happly
  have hconstruct : constructWith (Run.host fuel depth) a name c args ⟨h, f, w⟩ =
      .error (.thrown v) ⟨h₁.abandon this, f, w₁⟩ := by
    rw [constructWith, bind_of_ok hnew, bind_of_error hrun]
  rw [ensuring_of_error hconstruct, bind_of_ok (onHeap_ok hargs)]
  rfl

/-! ## Instructions that construct -/

/-- An object has a reference that nobody owns, so that the references are not accounted for. They would be if the
references to it, and to objects that were left behind before, were given up. -/
structure Heap.Burdened (h' : Heap) (abandoned : List Value) (this : Value) (owned : Multiset Value) : Prop where
  unaccounted : ¬Accounted owned h'
  left : ∃ left, h'.abandoned = this :: left ++ abandoned ∧ Accounted (↑(this :: left) + owned) h' ∧
    ∃ h'', releaseEach (this :: left) h' = .ok () h'' ∧ Accounted owned h''

theorem Heap.LeavesBehind.burdened {owned' : Multiset Value} {a : Address}
    (hl : h.LeavesBehind h' (.ref a :: left) owned)
    (hsame : ∀ a, owned'.count (.ref a) = owned.count (.ref a)) : h'.Burdened h.abandoned (.ref a) owned' where
  unaccounted hac := by
    have hcount := hl.accounted.counts a
    rw [hac.counts a, hsame, Multiset.count_add, Multiset.coe_count, List.count_cons_self] at hcount
    omega
  left := by
    refine ⟨left, hl.abandoned, hl.congr hsame, ?_⟩
    have hkept : h'.LeavesBehind h' [] (↑(.ref a :: left) + owned) := by
      refine ⟨rfl, ?_, ?_⟩
      · rw [Multiset.coe_nil, zero_add]
        exact hl.accounted
      · rw [Multiset.coe_nil, zero_add]
        exact hl.bound
    obtain ⟨h'', hok, hl''⟩ := hkept.exists_releaseEach (.ref a :: left)
    have hac := hl''.congr hsame
    rw [Multiset.coe_nil, zero_add] at hac
    exact ⟨h'', hok, hac⟩

/-- What a frame holds, apart from slots that were never bound. -/
def View.bound (V : View) : Multiset Value := V.values.filter (· ≠ .unbound)

theorem View.count_bound (V : View) (a : Address) : V.bound.count (.ref a) = V.values.count (.ref a) :=
  Multiset.count_filter_of_pos nofun

theorem View.unbound_notMem_bound (V : View) : .unbound ∉ V.bound := fun hu => (Multiset.mem_filter.1 hu).2 rfl

/-- Operands that are taken from a frame are owned beside what it holds then. -/
theorem Accounted.taken {T : List Value} (hac : Accounted (V.values + owned) h) (hO : V.operands = O ++ T) :
    Accounted (↑T + ({ V with operands := O }.bound + owned)) h := by
  refine hac.congr fun a => ?_
  simp only [Multiset.count_add, View.count_bound, View.values, hO, ← Multiset.coe_add]
  omega

theorem nameConstant_ok {s : World} (hf : f.Shows V) (hi : 0 ≤ i)
    (hname : V.method.constants.names[i.toNatClampNeg]? = some name) :
    nameConstant i (⟨h, f, s⟩ : Machine World) = .ok name ⟨h, f, s⟩ := by
  have hneg : ¬i < 0 := Int32.not_lt.2 hi
  have hnames : f.method.constants.names[i.toNatClampNeg]? = some name := by rw [hf.method, hname]
  have hentry : (entryAt f.method.constants.names i : Act World String) ⟨h, f, s⟩ = .ok name ⟨h, f, s⟩ := by
    simp only [entryAt, if_neg hneg, hnames]
    rfl
  exact hentry

theorem exists_construct_fails (hw : w.Proper owned) (hbound : .unbound ∉ owned)
    (hac : Machine.Accounts ⟨h, f, w⟩ V owned) (hargs : .unbound ∉ args) (hO : V.operands = O ++ fn :: args)
    (hi : i.toInt = args.length) (hthrows : ConstructorThrows (Run.host fuel depth) h w fn args v) :
    ∃ mc', IndexedAction.construct.run (Run.host fuel depth) i ⟨h, f, w⟩ = .error (.thrown v) mc' ∧
      mc'.frame.Shows { V with operands := O } ∧ mc'.heap.Burdened h.abandoned (.ref h.cells.size)
        ({v} + ({ V with operands := O }.values + owned)) := by
  obtain ⟨hf, hac⟩ := hac
  have hO' : V.operands = O ++ [fn] ++ args := by rw [hO, List.append_assoc]; rfl
  obtain ⟨f₁, hpopMany, hf₁⟩ := popMany_ok (h := h) (s := w) hf hO' hi
  obtain ⟨f₂, hpop, hf₂⟩ := pop_ok (h := h) (s := w) hf₁ rfl
  have hfn : fn ≠ .unbound := by
    obtain ⟨a, _, _, _, rfl, -⟩ := hthrows
    exact nofun
  have htaken : .unbound ∉ ({fn} + ↑args) + ({ V with operands := O }.bound + owned) := by
    simp only [Multiset.mem_add, Multiset.mem_singleton, Multiset.mem_coe, not_or]
    exact ⟨⟨hfn.symm, hargs⟩, View.unbound_notMem_bound _, hbound⟩
  have hproper : w.Proper ({ V with operands := O }.bound + owned) := hw.mono (Multiset.le_add_left _ _)
  have hgiven : Accounted (({fn} + ↑args) + ({ V with operands := O }.bound + owned)) h := hac.taken hO
  obtain ⟨left, h', w', hrun, hl⟩ := exists_leavesBehind_of_construct (f := f₂) hproper hgiven htaken hthrows
  refine ⟨⟨h', f₂, w'⟩, ?_, hf₂, hl.burdened fun a => ?_⟩
  · simp only [IndexedAction.run]
    rw [bind_of_ok hpopMany, bind_of_ok hpop, bind_of_error hrun]
  · simp only [Multiset.count_add, View.count_bound]

theorem exists_constructProp_fails (hw : w.Proper owned) (hbound : .unbound ∉ owned)
    (hac : Machine.Accounts ⟨h, f, w⟩ V owned) (hargs : .unbound ∉ args) (hO : V.operands = O ++ x :: args)
    (hx : x ≠ .unbound) (hi : 0 ≤ i) (hname : V.method.constants.names[i.toNatClampNeg]? = some name)
    (hj : j.toInt = args.length) (hget : getProperty x name h = .ok fn h₁)
    (hthrows : ConstructorThrows (Run.host fuel depth) h₁ w fn args v) :
    ∃ mc', PairAction.constructProp.run (Run.host fuel depth) i j ⟨h, f, w⟩ = .error (.thrown v) mc' ∧
      mc'.frame.Shows { V with operands := O } ∧ mc'.heap.Burdened h.abandoned (.ref h₁.cells.size)
        ({v} + ({ V with operands := O }.values + owned)) := by
  obtain ⟨hf, hac⟩ := hac
  have hO' : V.operands = O ++ [x] ++ args := by rw [hO, List.append_assoc]; rfl
  obtain ⟨f₁, hpopMany, hf₁⟩ := popMany_ok (h := h) (s := w) hf hO' hj
  obtain ⟨f₂, hpop, hf₂⟩ := pop_ok (h := h) (s := w) hf₁ rfl
  have htaken : .unbound ∉ ({x} + ↑args) + ({ V with operands := O }.bound + owned) := by
    simp only [Multiset.mem_add, Multiset.mem_singleton, Multiset.mem_coe, not_or]
    exact ⟨⟨hx.symm, hargs⟩, View.unbound_notMem_bound _, hbound⟩
  have hgiven : Accounted (({x} + ↑args) + ({ V with operands := O }.bound + owned)) h := hac.taken hO
  -- The function is read from the receiver, which is given up at the end.
  have hlive : h.Live x := hgiven.live_of_mem (by simp) hx
  obtain ⟨_, rfl, hac₁, hbound₁, habandoned⟩ :=
    ((hgiven.bond htaken).leads_getProperty ⟨hlive, hlive, rfl⟩ name).accounted hget
  have hsame : (lefts {Link.pair fn fn} + (({x} + ↑args) + ({ V with operands := O }.bound + owned)) : Multiset Value) =
      ({fn} + ↑args) + ({x} + ({ V with operands := O }.bound + owned)) := by
    rw [lefts_singleton, lefts_pair]
    abel
  rw [hsame] at hac₁ hbound₁
  have hproper : w.Proper ({x} + ({ V with operands := O }.bound + owned)) := by
    rw [← add_assoc]
    exact hw.mono (Multiset.le_add_left _ _)
  obtain ⟨left, h₂, w', hrun, hl⟩ := exists_leavesBehind_of_construct (f := f₂) hproper hac₁ hbound₁ hthrows
  rw [add_left_comm] at hl
  obtain ⟨h₃, hrelease, hl₃⟩ := hl.exists_release
  refine ⟨⟨h₃, f₂, w'⟩, ?_, hf₂, habandoned ▸ hl₃.burdened fun a => ?_⟩
  · simp only [PairAction.run]
    rw [bind_of_ok hpopMany, bind_of_ok hpop]
    refine consumingAct_of_error hx ?_ (onHeap_ok hrelease)
    rw [bind_of_ok (nameConstant_ok hf₂ hi hname), bind_of_ok (onHeap_ok hget), bind_of_error hrun]
  · simp only [Multiset.count_add, View.count_bound]

/-- If the function of a construction throws, then its new object is left with a reference that nobody owns, once the
instruction has given up its operands: the references are not accounted for. They would be if the references to the
new object, and to those of constructions inside of this one, had been given up. -/
theorem failed_construction_leaves_object (hw : w.Proper owned) (hbound : .unbound ∉ owned)
    (hac : Machine.Accounts ⟨h, f, w⟩ V owned) (hargs : .unbound ∉ args) :
    (∀ (fn : Value) (i : Int32), V.operands = O ++ fn :: args → i.toInt = args.length →
      ConstructorThrows (Run.host fuel depth) h w fn args v → ∃ mc',
        IndexedAction.construct.run (Run.host fuel depth) i ⟨h, f, w⟩ = .error (.thrown v) mc' ∧
        mc'.frame.Shows { V with operands := O } ∧ mc'.heap.Burdened h.abandoned (.ref h.cells.size)
          ({v} + ({ V with operands := O }.values + owned))) ∧
    ∀ (x : Value) (name : String) (fn : Value) (h₁ : Heap) (i j : Int32), V.operands = O ++ x :: args →
      x ≠ .unbound → 0 ≤ i → V.method.constants.names[i.toNatClampNeg]? = some name → j.toInt = args.length →
      getProperty x name h = .ok fn h₁ → ConstructorThrows (Run.host fuel depth) h₁ w fn args v → ∃ mc',
        PairAction.constructProp.run (Run.host fuel depth) i j ⟨h, f, w⟩ = .error (.thrown v) mc' ∧
        mc'.frame.Shows { V with operands := O } ∧ mc'.heap.Burdened h.abandoned (.ref h₁.cells.size)
          ({v} + ({ V with operands := O }.values + owned)) :=
  ⟨fun _ _ => exists_construct_fails hw hbound hac hargs,
    fun _ _ _ _ _ _ => exists_constructProp_fails hw hbound hac hargs⟩

/-- A constructor that stores its argument in the new object and then throws. -/
def Method.faultyConstructor : Method where
  name := "faulty"
  params := 1
  locals := 2
  maxStack := 2
  code := some #[0xd0, 0xd1, 0x61, 0x00, 0x20, 0x03]
  pool := some { names := #["x"] }

def World.faulty : World := { World.ofMethods #[.faultyConstructor] false with engines := #[⟨{}, .null⟩] }

theorem World.proper_faulty : World.faulty.Proper {.null} where
  methods m hm := by
    obtain rfl : m = .faultyConstructor := by simpa [World.faulty, World.ofMethods] using hm
    exact ⟨by decide, enumeratesApart_of_all (by decide)⟩
  compiled i m c _ hc := by
    rcases i with _ | i
    · cases hc
    · simp [World.faulty, World.ofMethods] at hc
  globals e he := by
    obtain rfl : e = ⟨{}, .null⟩ := by simpa [World.faulty] using he
    simp
  foreign f hf := by simp [World.faulty, World.ofMethods] at hf

/-- An object, and the function of the constructor. -/
def Heap.beforeConstruction : Heap where
  cells := #[⟨1, .object {} none⟩, ⟨1, .function "faulty" (.method 0 0)⟩]

def Frame.beforeConstruction : Frame := { firstSlots := #[], secondSlots := #[.ref 1, .ref 0], stackIndex := 2 }

def View.beforeConstruction : View where
  capacity := 2
  global := .null
  method := {}
  jumps := 0
  locals := []
  operands := [.ref 1, .ref 0]
  scope := []

theorem accounts_beforeConstruction :
    Machine.Accounts ⟨.beforeConstruction, .beforeConstruction, World.faulty⟩ .beforeConstruction {.null} where
  frame := ⟨⟨rfl, rfl, rfl, rfl, by decide, rfl, by decide, by decide⟩, by decide, rfl, rfl, rfl, rfl⟩
  heap := by
    have hcell {a : Address} {c : Cell} (hc : Heap.beforeConstruction.cells[a]? = some c) :
        c.count = 1 ∧ c.body.children = [] ∧ c.body.maker? = none := by
      rcases a with _ | _ | a <;> simp [Heap.beforeConstruction] at hc
      · subst hc
        exact ⟨rfl, rfl, rfl⟩
      · subst hc
        exact ⟨rfl, rfl, rfl⟩
    refine ⟨fun a => ?_, fun a c hc h0 => ?_, fun a c hc => ?_, fun a c hc k hk => ?_⟩
    · rcases a with _ | _ | a
      · decide
      · decide
      · simp [Heap.countAt, Heap.held, Heap.total, Cell.held, Heap.beforeConstruction, View.values,
          View.beforeConstruction, Body.children]
    · rw [(hcell hc).1] at h0
      cases h0
    · simp [(hcell hc).2.1]
    · rw [(hcell hc).2.2] at hk
      cases hk

/-- The value with which an action fails. -/
def failure? {σ : Type} : EStateM.Result Fault σ Value → Option Value
  | .error (.thrown v) _ => some v
  | _ => none

theorem exists_of_failure? {σ : Type} {r : EStateM.Result Fault σ Value} (hr : failure? r = some v) :
    ∃ s, r = .error (.thrown v) s := by
  unfold failure? at hr
  split at hr
  · cases hr
    exact ⟨_, rfl⟩
  · cases hr

theorem constructorThrows_faulty :
    ConstructorThrows (Run.host 9 1) .beforeConstruction .faulty (.ref 1) [.ref 0] .null := by
  have hfails : failure? (apply (Run.host 9 1) "faulty" (.method 0 0) (.ref 2) [.ref 0]
      ⟨Heap.beforeConstruction.extended (.object {} (some 1)), .faulty⟩) = some .null := by decide +kernel
  obtain ⟨st, hst⟩ := exists_of_failure? hfails
  exact ⟨1, "faulty", .method 0 0, st, rfl, rfl, hst⟩

/-- The new object still holds the argument that was stored in it, and nobody owns the object. -/
theorem failed_construction_leaves_object_faulty : World.faulty.Proper {.null} ∧
    Machine.Accounts ⟨.beforeConstruction, .beforeConstruction, World.faulty⟩ .beforeConstruction {.null} ∧
    ConstructorThrows (Run.host 9 1) .beforeConstruction .faulty (.ref 1) [.ref 0] .null ∧ ∃ mc',
      IndexedAction.construct.run (Run.host 9 1) 1 ⟨.beforeConstruction, .beforeConstruction, .faulty⟩ =
        .error (.thrown .null) mc' ∧ mc'.frame.Shows { View.beforeConstruction with operands := [] } ∧
      ¬Accounted ({.null} + ({ View.beforeConstruction with operands := [] }.values + {.null})) mc'.heap := by
  have hconstruct {w : World} (hw : w.Proper {.null})
      (hac : Machine.Accounts ⟨.beforeConstruction, .beforeConstruction, w⟩ .beforeConstruction {.null})
      (hthrows : ConstructorThrows (Run.host 9 1) .beforeConstruction w (.ref 1) [.ref 0] .null) :=
    (failed_construction_leaves_object (O := []) hw (by simp) hac (by simp)).1 (.ref 1) 1 rfl rfl hthrows
  obtain ⟨mc', hrun, hf, hburdened⟩ :=
    hconstruct World.proper_faulty accounts_beforeConstruction constructorThrows_faulty
  exact ⟨World.proper_faulty, accounts_beforeConstruction, constructorThrows_faulty, mc', hrun, hf,
    hburdened.unaccounted⟩

end MethodJit
