import MethodJit.Proofs.Activation
import MethodJit.Proofs.Boundaries

/-!
# Two interpretations in lockstep

Two invocations that are joined are joined still when the interpreter has carried out the same instruction
in both, and it goes on at the same position. An enumeration has to be held by two locals: one that is
moved on in a single local is out of step with what it owns.
-/

namespace MethodJit

/-- Instructions start at the beginning of the code, behind another instruction and at the targets of
branches. -/
inductive StartsAt (code : Array UInt8) : Nat → Prop
  | start : StartsAt code 0
  | onward {pos next : Nat} {byte : UInt8} (h : StartsAt code pos) (hbyte : code[pos]? = some byte)
    (hskip : skipInstruction byte ⟨code, pos + 1⟩ = .ok () ⟨code, next⟩) : StartsAt code next
  | target {pos next : Nat} {byte : UInt8} {d : Int} (h : StartsAt code pos) (hbyte : code[pos]? = some byte)
    (hbranch : (actionOfByte byte).hasTarget = true)
    (hd : Cursor.s24 ⟨code, pos + 1⟩ = .ok d ⟨code, next⟩) : StartsAt code (next + d).toNat
  | case {pos : Nat} {byte : UInt8} {fallback d : Int} {cases : List Int} {c : Cursor} (h : StartsAt code pos)
    (hbyte : code[pos]? = some byte) (hswitch : actionOfByte byte = .lookupSwitch)
    (hread : readSwitch ⟨code, pos + 1⟩ = .ok (fallback, cases) c) (hd : d ∈ fallback :: cases) :
    StartsAt code (pos + d).toNat

/-- The enumerations of the method are held by two different locals each. -/
def Method.EnumeratesApart (m : Method) : Prop :=
  ∀ pos byte i j c c', StartsAt m.bytes pos → m.bytes[pos]? = some byte → actionOfByte byte = .hasNext2 →
    Cursor.u30 ⟨m.bytes, pos + 1⟩ = .ok i c → Cursor.u30 c = .ok j c' → i ≠ j

/-- Whether there can be an instruction with an action: the arguments are bound before the first one, the
locals that are implied are the first four, and steps of locals throw nothing. -/
def Action.proper : Action → Bool
  | .frame .bindArguments | .namedCounted .hasNext2 | .stepLocal .convertO => false
  | .getFixed i | .setFixed i => i < 4
  | _ => true

theorem Opcode.proper_action (op : Opcode) : op.action.proper = true := by cases op <;> rfl

theorem proper_actionOfByte (byte : UInt8) : (actionOfByte byte).proper = true := by
  unfold actionOfByte
  cases Opcode.ofByte? byte with
  | none => rfl
  | some op => exact op.proper_action

variable {σ α β : Type} {K : Origin} {s : Setting} {I : σ → Prop} {P Q pre : Multiset Link}
  {G borrow : List Link} {t : Prop} {R : α → β → Multiset Link → Prop} {host : Host σ}

/-- What is known of the result on the left besides. -/
theorem Twin.knowing {τ τ' : Type} {π : Bridge τ τ'} {x : EStateM Fault τ α} {y : EStateM Fault τ' β}
    {Q : α → Prop} (h : Twin π borrow pre t x y R) (hQ : ∀ s, Yields x s fun a _ => Q a) :
    Twin π borrow pre t x y fun a b P => R a b P ∧ Q a := by
  intro keep s s' hkeep hj
  have h := h keep s s' hkeep hj
  have hQ := hQ s
  generalize hx : x s = rx at h ⊢
  generalize y s' = ry at h ⊢
  cases h.cases with
  | ok hr =>
    obtain ⟨P, hR, hj⟩ := hr
    exact ⟨P, ⟨hR, hQ.ok hx⟩, hj⟩
  | bounds hl => exact .of_bounds hl
  | endless hl hr | exhausted hl hr => exact ⟨hl, hr⟩
  | thrown ht hj => exact ⟨ht, hj⟩
  | code ht hj => exact ⟨ht, rfl, hj⟩

namespace Interpreter

/-- Two invocations go on at the same position, or give values that stand for the same. -/
def GivesNext (n n' : Next) (P : Multiset Link) : Prop :=
  (∃ pos, n = .goto pos ∧ n' = .goto pos ∧ P = 0) ∨ ∃ v w, n = .done v ∧ n' = .done w ∧ P = {Link.pair v w}

/-! ## Reading -/

theorem twin_fetch (code : Array UInt8) (pos : Nat) {read : Cursor.Read α} :
    Twin (machineBridge K s I) borrow 0 True (fetch code pos read) (fetch code pos read) Same := by
  intro keep mc mc' _ hj
  unfold fetch
  cases read ⟨code, pos⟩ with
  | ok a c => exact ⟨0, ⟨rfl, rfl⟩, hj⟩
  | error e c =>
    rw [zero_add] at hj
    exact ⟨trivial, rfl, hj⟩

theorem size_localSlots {f : Frame} {V : View} (hf : f.Shows V) : f.localSlots.size = V.locals.length := by
  rw [Frame.localSlots, hf.locals, ← hf.slots, Array.length_toList]
  rfl

/-- Both frames have the same number of locals. -/
theorem twin_localSlots {R : α → α → Multiset Link → Prop} (k : Nat → Act σ α)
    (h : ∀ n, Twin (machineBridge K s I) borrow pre t (k n) (k n) R) :
    Twin (machineBridge K s I) borrow pre t (do k (← frame).localSlots.size)
      (do k (← frame).localSlots.size) R := by
  intro keep mc mc' hkeep hj
  obtain ⟨-, -, V, V', n, hf, hf', Z, M, S, hp, -⟩ := id hj
  have hsize : mc'.frame.localSlots.size = mc.frame.localSlots.size := by
    have hl := congrArg List.length hp.locals_left
    have hr := congrArg List.length hp.locals_right
    simp only [View.lane, List.length_map] at hl hr
    rw [size_localSlots hf, size_localSlots hf', hl, hr]
  change Agree _ _ _ _ (k mc.frame.localSlots.size mc) (k mc'.frame.localSlots.size mc')
  rw [hsize]
  exact h _ keep mc mc' hkeep hj

/-- The index of a local is a number of the code. -/
theorem twin_fetchLocal (code : Array UInt8) (pos : Nat) :
    Twin (machineBridge K s I) borrow 0 True (fetchLocal code pos) (fetchLocal code pos) fun r r' P =>
      Same r r' P ∧ Cursor.u30 ⟨code, pos⟩ = .ok r.1 ⟨code, r.2⟩ := by
  have h : Twin (machineBridge K s I) borrow 0 True (fetchLocal code pos) (fetchLocal code pos) Same :=
    twin_localSlots (fun n => fetch code pos (Cursor.index .locals n)) fun _ => twin_fetch code pos
  exact h.knowing fun _ => fetchLocal_reads

theorem twin_checkFixed (i : Nat) :
    Twin (machineBridge K s I) borrow 0 True (checkFixed i) (checkFixed i) Done := by
  refine twin_localSlots (fun n => if n ≤ i then throw (.code (.noLocal i)) else pure ()) fun n => ?_
  intro keep mc mc' _ hj
  by_cases hn : n ≤ i
  · rw [if_pos hn]
    rw [zero_add] at hj
    exact ⟨trivial, rfl, hj⟩
  · rw [if_neg hn]
    exact ⟨0, rfl, hj⟩

/-! ## Going on -/

theorem twin_goto (pos : Nat) :
    Twin (machineBridge K s I) borrow 0 t (pure (.goto pos)) (pure (.goto pos)) GivesNext :=
  Twin.pure (.inl ⟨pos, rfl, rfl, rfl⟩)

theorem twin_onward {x y : Act σ Unit} (h : Twin (machineBridge K s I) borrow pre t x y Done) (pos : Nat) :
    Twin (machineBridge K s I) borrow pre t (do x; pure (.goto pos)) (do y; pure (.goto pos)) GivesNext := by
  refine h.bind fun _ _ P hP => ?_
  rw [hP]
  exact twin_goto pos

theorem twin_seek (code : Array UInt8) (pos : Nat) (target : Int) :
    Twin (machineBridge K s I) borrow 0 True
      (do
        let (_, pos) ← fetch code pos (Cursor.seek target)
        pure (.goto pos))
      (do
        let (_, pos) ← fetch code pos (Cursor.seek target)
        pure (.goto pos)) GivesNext := by
  refine (twin_fetch code pos).bind ?_
  rintro ⟨_, next⟩ _ P ⟨rfl, rfl⟩
  exact twin_goto next

theorem twin_branch (code : Array UInt8) (pos : Nat) (take : Bool) :
    Twin (machineBridge K s I) borrow 0 True (branch code pos take) (branch code pos take) GivesNext := by
  refine (twin_fetch code pos).bind ?_
  rintro ⟨d, next⟩ _ P ⟨rfl, rfl⟩
  cases take with
  | true => exact twin_seek code next (next + d)
  | false => exact twin_goto next

/-! ## Operands and locals -/

theorem twin_dup : Twin (machineBridge K s I) borrow 0 t
    (do
      let x ← pop
      onHeap (retain x)
      push x
      push x)
    (do
      let x ← pop
      onHeap (retain x)
      push x
      push x) Done := by
  refine (Follows.twin follows_dup follows_dup fun n => ?_).imp fun _ _ _ ⟨_, _, _, _, hP⟩ => hP
  refine Lane.twin_shareTop.bind fun x y P hP => ?_
  rw [hP.1]
  exact Lane.twin_push (fun h => h) hP.2

theorem twin_swap : Twin (machineBridge K s I) borrow 0 t
    (do
      let b ← pop
      let a ← pop
      push b
      push a)
    (do
      let b ← pop
      let a ← pop
      push b
      push a) Done := by
  refine Machine.twin_pop.bind fun b b' P hP => ?_
  rw [hP, ← zero_add {Link.pair b b'}]
  refine Machine.twin_pop.bind_rest fun a a' P hP => ?_
  rw [hP, add_comm]
  refine (Machine.twin_push b b').bind_rest fun _ _ P hP => ?_
  rw [hP, zero_add]
  exact Machine.twin_push a a'

theorem twin_pushInt (n : Int32) : Twin (machineBridge K s I) borrow 0 t (do push (← onHeap (newInt n)))
    (do push (← onHeap (newInt n))) Done :=
  Machine.twin_bind_push (Machine.twin_onHeap (twin_alloc rfl))

/-- A new reference to a local. -/
theorem twin_share {i : Nat} (hi : i < 2 ^ 63) : Twin (machineBridge K s I) borrow 0 t
    (do
      let v ← readLocal (.ofNat i)
      onHeap (retain v)
      pure v)
    (do
      let v ← readLocal (.ofNat i)
      onHeap (retain v)
      pure v) Gives := by
  refine (Follows.twin (follows_share hi) (follows_share hi) fun n => Lane.twin_share i).imp ?_
  rintro _ _ P ⟨v, w, rfl, rfl, hP⟩
  exact hP

theorem twin_pushLocal {i : Nat} (hi : i < 2 ^ 63) : Twin (machineBridge K s I) borrow 0 t
    (do pushShared (← readLocal (.ofNat i))) (do pushShared (← readLocal (.ofNat i))) Done := by
  have h : Twin (machineBridge K s I) borrow 0 t _ _ Done := Machine.twin_bind_push (twin_share hi)
  simpa only [bind_assoc, pure_bind, pushShared] using h

theorem twin_setLocal {i : Nat} (hi : i < 2 ^ 63) (v w : Value) :
    Twin (machineBridge K s I) borrow {Link.pair v w} t (setLocal i v) (setLocal i w) Done :=
  (Follows.twin (follows_setLocal hi v) (follows_setLocal hi w) fun _ => Lane.twin_setLocal .now .now i).imp
    fun _ _ _ ⟨_, _, _, _, hP⟩ => hP

theorem twin_popLocal {i : Nat} (hi : i < 2 ^ 63) : Twin (machineBridge K s I) borrow 0 t
    (do setLocal i (← pop)) (do setLocal i (← pop)) Done := by
  refine Machine.twin_pop.bind fun v w P hP => ?_
  rw [hP]
  exact twin_setLocal hi v w

theorem twin_kill {i : Nat} (hi : i < 2 ^ 63) :
    Twin (machineBridge K s I) borrow 0 t (setLocal i .undefined) (setLocal i .undefined) Done := by
  have hundefined : Twin (machineBridge K s I) borrow 0 t (onHeap (pure .undefined))
      (onHeap (pure .undefined)) Gives :=
    Machine.twin_onHeap (twin_immortal (by simp) (by simp))
  have h := hundefined.bind (f := setLocal i) (g := setLocal i) fun v w P hP => hP ▸ twin_setLocal hi v w
  rwa [onHeap_pure_bind] at h

theorem twin_stepLocal (r : Unary) {i : Nat} (hi : i < 2 ^ 63) : Twin (machineBridge K s I) borrow 0 True
    (do
      let x ← readLocal (.ofNat i)
      onHeap (retain x)
      setLocal i (← onHeap (r.run x)))
    (do
      let x ← readLocal (.ofNat i)
      onHeap (retain x)
      setLocal i (← onHeap (r.run x))) Done := by
  have hstep : Twin (machineBridge K s I) borrow 0 True
      ((do
        let v ← readLocal (.ofNat i)
        onHeap (retain v)
        pure v) >>= fun x => onHeap (r.run x) >>= setLocal i)
      ((do
        let v ← readLocal (.ofNat i)
        onHeap (retain v)
        pure v) >>= fun x => onHeap (r.run x) >>= setLocal i) Done := by
    refine (twin_share hi).bind fun v w P hP => ?_
    rw [hP]
    refine ((Machine.twin_onHeap (twin_unary r)).mono (fun _ hl => hl) (fun _ => trivial)
      fun _ _ _ h => h).bind fun v' w' P hP => ?_
    rw [hP]
    exact twin_setLocal hi v' w'
  simpa only [bind_assoc, pure_bind] using hstep

theorem twin_supplied (r : Supply) (hg : Link.pair s.global s.global ∈ borrow) :
    Twin (machineBridge K s I) borrow 0 t (do push (← r.run)) (do push (← r.run)) Done := by
  refine Machine.twin_bind_push ?_
  refine (Follows.twin (follows_supply r) (follows_supply r) fun n => Lane.twin_supply r hg).imp ?_
  rintro _ _ P ⟨v, w, rfl, rfl, hP⟩
  exact hP

theorem twin_constant (c : Constant) (i : Int32) :
    Twin (machineBridge K s I) borrow 0 t (do push (← c.run i)) (do push (← c.run i)) Done := by
  refine Machine.twin_bind_push ?_
  refine (Follows.twin (follows_constant c i) (follows_constant c i) fun n => Lane.twin_constant c i).imp ?_
  rintro _ _ P ⟨v, w, rfl, rfl, hP⟩
  exact hP

/-- The case of a switch is selected by the topmost operand. -/
theorem twin_switchWord : Twin (machineBridge K s I) borrow 0 t
    (do
      let x ← pop
      let i := (← get).heap.toInt32 x
      onHeap (release x)
      pure i)
    (do
      let x ← pop
      let i := (← get).heap.toInt32 x
      onHeap (release x)
      pure i) Same := by
  have hword (v w : Value) : Twin (heapBridge K) borrow {Link.pair v w} t
      (do
        let i ← wordOf v
        release v
        pure i)
      (do
        let i ← wordOf w
        release w
        pure i) Same := by
    have hwords : Reads K [Link.pair v w] (wordOf v) (wordOf w) := Reads.wordOf (by simp)
    have hread : Twin (heapBridge K) ([Link.pair v w] ++ borrow) 0 False (wordOf v) (wordOf w) Same :=
      hwords.twin (by simp)
    rw [← add_zero {Link.pair v w}]
    refine Twin.bind_lend [Link.pair v w] hread fun i _ P hP => ?_
    obtain ⟨rfl, rfl⟩ := hP
    rw [zero_add, add_zero]
    refine twin_release.bind fun _ _ P hP => ?_
    rw [hP]
    exact Twin.pure ⟨rfl, rfl⟩
  refine Machine.twin_pop.bind fun v w P hP => ?_
  rw [hP]
  have h : Twin (machineBridge K s I) borrow {Link.pair v w} t _ _ Same := Machine.twin_onHeap (hword v w)
  simp only [onHeap_bind] at h
  exact fun keep mc mc' hkeep hj => h keep mc mc' hkeep hj

/-- The two topmost operands, which are linked on both sides. -/
theorem twin_popTwo {x : Value → Value → Act σ α} {y : Value → Value → Act σ β}
    (h : ∀ v w v' w', Twin (machineBridge K s I) borrow ({Link.pair v' w'} + {Link.pair v w}) t (x v v') (y w w')
      R) :
    Twin (machineBridge K s I) borrow 0 t
      (do
        let b ← pop
        let a ← pop
        x b a)
      (do
        let b ← pop
        let a ← pop
        y b a) R := by
  refine Machine.twin_pop.bind fun v w P hP => ?_
  rw [hP, ← zero_add {Link.pair v w}]
  refine Machine.twin_pop.bind_rest fun v' w' P hP => ?_
  rw [hP]
  exact h v w v' w'

/-! ## Instructions -/

theorem nonneg_ofNat {i : Nat} (hi : i < 2 ^ 30) : (0 : Int32) ≤ .ofNat i := by
  rw [Int32.le_iff_toInt_le, Int32.toInt_ofNat_of_lt (by omega)]
  simp

theorem ofNat_inj_of_lt {i j : Nat} (hi : i < 2 ^ 30) (hj : j < 2 ^ 30) (h : Int32.ofNat i = .ofNat j) : i = j := by
  have h := congrArg Int32.toInt h
  rw [Int32.toInt_ofNat_of_lt (by omega), Int32.toInt_ofNat_of_lt (by omega)] at h
  omega

theorem lt_of_fetchLocal {code : Array UInt8} {pos i next : Nat}
    (h : Cursor.u30 ⟨code, pos⟩ = .ok i ⟨code, next⟩) : i < 2 ^ 63 :=
  (Cursor.lt_of_u30 h).trans (by decide)

/-- The same instruction is carried out in two invocations. -/
theorem twin_perform (hhost : Faithful K I G host) (hG : ∀ l ∈ G, l ∈ borrow)
    (hg : Link.pair s.global s.global ∈ borrow) (code : Array UInt8) (start pos : Nat) (byte : UInt8)
    {a : Action} (ha : a.proper = true)
    (hapart : a = .hasNext2 → ∀ i j c c', Cursor.u30 ⟨code, pos⟩ = .ok i c → Cursor.u30 c = .ok j c' → i ≠ j) :
    Twin (machineBridge K s I) borrow 0 True (perform host code start pos byte a)
      (perform host code start pos byte a) GivesNext := by
  cases a with
  | none => exact twin_goto pos
  | debug | note =>
    refine (twin_fetch code pos).bind ?_
    rintro ⟨_, next⟩ _ P ⟨rfl, rfl⟩
    exact twin_goto next
  | pushByte =>
    refine (twin_fetch code pos).bind ?_
    rintro ⟨n, next⟩ _ P ⟨rfl, rfl⟩
    simpa only [bind_assoc] using twin_onward (twin_pushInt (signExtend8 n)) next
  | pushShort =>
    refine (twin_fetch code pos).bind ?_
    rintro ⟨n, next⟩ _ P ⟨rfl, rfl⟩
    simpa only [bind_assoc] using twin_onward (twin_pushInt (signExtend16 n)) next
  | pop =>
    have h : Twin (machineBridge K s I) borrow 0 True (do onHeap (release (← pop)))
        (do onHeap (release (← pop))) Done :=
      Machine.twin_pop.bind fun v w P hP => hP ▸ Machine.twin_onHeap twin_release
    simpa only [perform, bind_assoc] using twin_onward h pos
  | dup => simpa only [perform, bind_assoc] using twin_onward twin_dup pos
  | swap => simpa only [perform, bind_assoc] using twin_onward twin_swap pos
  | getLocal =>
    refine (twin_fetchLocal code pos).bind ?_
    rintro ⟨i, next⟩ _ P ⟨⟨rfl, rfl⟩, hread⟩
    simpa only [bind_assoc] using twin_onward (twin_pushLocal (lt_of_fetchLocal hread)) next
  | getFixed i =>
    refine (twin_checkFixed i).bind fun _ _ P hP => ?_
    rw [hP]
    simpa only [bind_assoc] using twin_onward (twin_pushLocal ((of_decide_eq_true ha).trans (by decide))) pos
  | setLocal =>
    refine (twin_fetchLocal code pos).bind ?_
    rintro ⟨i, next⟩ _ P ⟨⟨rfl, rfl⟩, hread⟩
    simpa only [bind_assoc] using twin_onward (twin_popLocal (lt_of_fetchLocal hread)) next
  | setFixed i =>
    refine (twin_checkFixed i).bind fun _ _ P hP => ?_
    rw [hP]
    simpa only [bind_assoc] using twin_onward (twin_popLocal ((of_decide_eq_true ha).trans (by decide))) pos
  | kill =>
    refine (twin_fetchLocal code pos).bind ?_
    rintro ⟨i, next⟩ _ P ⟨⟨rfl, rfl⟩, hread⟩
    exact twin_onward (twin_kill (lt_of_fetchLocal hread)) next
  | stepLocal r =>
    refine (twin_fetchLocal code pos).bind ?_
    rintro ⟨i, next⟩ _ P ⟨⟨rfl, rfl⟩, hread⟩
    simpa only [bind_assoc] using twin_onward (twin_stepLocal r (lt_of_fetchLocal hread)) next
  | returnVoid =>
    have h : Twin (machineBridge K s I) borrow 0 True (onHeap (pure .undefined) >>= fun v => pure (.done v))
        (onHeap (pure .undefined) >>= fun v => pure (.done v)) GivesNext :=
      (Machine.twin_onHeap (twin_immortal (by simp) (by simp))).bind fun v w P hP =>
        Twin.pure (.inr ⟨v, w, rfl, rfl, hP⟩)
    exact h
  | returnValue =>
    refine Machine.twin_pop.bind fun v w P hP => ?_
    exact Twin.pure (.inr ⟨v, w, rfl, rfl, hP⟩)
  | throw =>
    refine Machine.twin_pop.bind fun v w P hP => ?_
    rw [hP]
    exact Twin.thrown (machineBridge_plain K s I)
  | supply r => simpa only [perform, bind_assoc] using twin_onward (twin_supplied r hg) pos
  | constant c =>
    refine Machine.twin_frame fun f f' hf hf' _ _ => ?_
    rw [hf, hf']
    refine (twin_fetch code pos).bind ?_
    rintro ⟨i, next⟩ _ P ⟨rfl, rfl⟩
    simpa only [bind_assoc] using twin_onward (twin_constant c (.ofNat i)) next
  | frame a => exact twin_onward (Machine.twin_framed (by rintro rfl; cases ha)) pos
  | scopeObject | counted =>
    refine (twin_fetch code pos).bind ?_
    rintro ⟨i, next⟩ _ P ⟨rfl, rfl⟩
    exact twin_onward (Machine.twin_indexed hhost hG hg _ (.ofNat i)) next
  | named a =>
    refine Machine.twin_frame fun f f' hf hf' _ _ => ?_
    rw [hf, hf']
    refine (twin_fetch code pos).bind ?_
    rintro ⟨i, next⟩ _ P ⟨rfl, rfl⟩
    exact twin_onward (Machine.twin_indexed hhost hG hg a (.ofNat i)) next
  | namedCounted a =>
    refine Machine.twin_frame fun f f' hf hf' _ _ => ?_
    rw [hf, hf']
    refine (twin_fetch code pos).bind ?_
    rintro ⟨i, mid⟩ _ P ⟨rfl, rfl⟩
    refine (twin_fetch code mid).bind ?_
    rintro ⟨n, next⟩ _ P ⟨rfl, rfl⟩
    exact twin_onward (Machine.twin_paired hhost hG (by rintro rfl; cases ha) (.ofNat i) (.ofNat n)) next
  | hasNext2 =>
    refine (twin_fetchLocal code pos).bind ?_
    rintro ⟨i, mid⟩ _ P ⟨⟨rfl, rfl⟩, hread⟩
    refine (twin_fetchLocal code mid).bind ?_
    rintro ⟨j, next⟩ _ P ⟨⟨rfl, rfl⟩, hread'⟩
    have hne := hapart rfl i j _ _ hread hread'
    have hi := Cursor.lt_of_u30 hread
    have hj := Cursor.lt_of_u30 hread'
    refine twin_onward (Machine.twin_hasNext2 (nonneg_ofNat hi) (nonneg_ofNat hj) ?_) next
    exact fun heq => hne (ofNat_inj_of_lt hi hj heq)
  | unary r =>
    have h : Twin (machineBridge K s I) borrow 0 True (do push (← onHeap (r.run (← pop))))
        (do push (← onHeap (r.run (← pop)))) Done := by
      refine Machine.twin_pop.bind fun v w P hP => hP ▸ Machine.twin_bind_push ?_
      exact (Machine.twin_onHeap (twin_unary r)).mono (fun _ hl => hl) (fun _ => trivial) fun _ _ _ h => h
    simpa only [perform, bind_assoc] using twin_onward h pos
  | binary r =>
    have h : Twin (machineBridge K s I) borrow 0 True (do
          let b ← pop
          let a ← pop
          push (← onHeap (r.run a b)))
        (do
          let b ← pop
          let a ← pop
          push (← onHeap (r.run a b))) Done := by
      refine twin_popTwo fun b b' a a' => Machine.twin_bind_push ?_
      exact (Machine.twin_onHeap (twin_binary r)).mono (fun _ hl => hl) (fun _ => trivial) fun _ _ _ h => h
    simpa only [perform, bind_assoc] using twin_onward h pos
  | test t =>
    refine Machine.twin_pop.bind fun v w P hP => ?_
    rw [hP]
    refine (Machine.twin_onHeap (twin_test t)).bind fun take _ P hP => ?_
    obtain ⟨rfl, rfl⟩ := hP
    exact twin_branch code pos take
  | compare c =>
    refine twin_popTwo fun b b' a a' => ?_
    refine (Machine.twin_onHeap (twin_compare c)).bind fun take _ P hP => ?_
    obtain ⟨rfl, rfl⟩ := hP
    exact twin_branch code pos take
  | jump =>
    refine (twin_fetch code pos).bind ?_
    rintro ⟨d, next⟩ _ P ⟨rfl, rfl⟩
    refine Machine.twin_jump.bind fun _ _ P hP => ?_
    rw [hP]
    exact twin_seek code next (next + d)
  | lookupSwitch =>
    refine (twin_fetch code pos).bind ?_
    rintro ⟨⟨fallback, cases⟩, next⟩ _ P ⟨rfl, rfl⟩
    have h : Twin (machineBridge K s I) borrow 0 True _ _ GivesNext := twin_switchWord.bind fun i _ P hP => by
      obtain ⟨rfl, rfl⟩ := hP
      exact twin_seek code next (start + selectCase fallback cases i)
    simpa only [bind_assoc, pure_bind] using h
  | unsupported =>
    intro keep mc mc' _ hj
    rw [zero_add] at hj
    exact ⟨trivial, rfl, hj⟩

/-- The instruction at a position is carried out in two invocations. -/
theorem twin_step (hhost : Faithful K I G host) (hG : ∀ l ∈ G, l ∈ borrow)
    (hg : Link.pair s.global s.global ∈ borrow) (hapart : s.method.EnumeratesApart) {pos : Nat}
    (hpos : StartsAt s.method.bytes pos) :
    Twin (machineBridge K s I) borrow 0 True (step host s.method.bytes pos) (step host s.method.bytes pos)
      GivesNext := by
  unfold step
  cases hbyte : s.method.bytes[pos]? with
  | none =>
    intro keep mc mc' _ hj
    rw [zero_add] at hj
    exact ⟨trivial, rfl, hj⟩
  | some byte =>
    refine twin_perform hhost hG hg _ pos (pos + 1) byte (proper_actionOfByte byte) ?_
    exact fun ha i j c c' => hapart pos byte i j c c' hpos hbyte ha

/-! ## Runs -/

theorem supported_or (a : Action) :
    a = .lookupSwitch ∨ a = .unsupported ∨ a.convention ≠ .unsupported := by
  cases a with
  | lookupSwitch => exact .inl rfl
  | unsupported => exact .inr (.inl rfl)
  | _ => exact .inr (.inr nofun)

/-- The interpreter goes on where an instruction starts. -/
theorem startsAt_of_step {code : Array UInt8} {pos : Nat} (hpos : StartsAt code pos) (mc : Machine σ) :
    Yields (step host code pos) mc fun next _ => ∀ pos', next = .goto pos' → StartsAt code pos' := by
  unfold step
  cases hbyte : code[pos]? with
  | none => exact trivial
  | some byte =>
    rcases supported_or (actionOfByte byte) with ha | ha | ha
    · simp only [ha]
      refine (fetch_reads Cursor.advances_readSwitch).bind fun ⟨⟨fallback, cases⟩, next⟩ _ hread => ?_
      refine yields_then fun x _ => yields_then fun m _ => yields_then fun _ _ => ?_
      refine fetch_seeks.bind fun ⟨_, last⟩ _ hlast => ?_
      rintro _ ⟨⟩
      rw [show last = _ from hlast]
      exact .case hpos hbyte ha hread (selectCase_mem ..)
    · simp only [ha]
      exact trivial
    · refine (perform_extent ha pos byte).imp ?_
      rintro _ _ ⟨last, hskip, hread⟩ pos' rfl
      cases hread with
      | onward =>
        rw [← skipInstruction_eq ha] at hskip
        exact .onward hpos hbyte hskip
      | taken hbranch hd => exact .target hpos hbyte hbranch hd

theorem run_succ (code : Array UInt8) (fuel pos : Nat) :
    run host code (fuel + 1) pos = step host code pos >>= fun next =>
      match next with
      | .goto pos => run host code fuel pos
      | .done v => pure v := by
  funext mc
  simp only [run, bind, EStateM.bind]
  cases step host code pos mc with
  | ok next mc => cases next <;> rfl
  | error e mc => rfl

/-- Two invocations in which the interpreter goes on at the same position stay joined to the end. -/
theorem twin_run (hhost : Faithful K I G host) (hG : ∀ l ∈ G, l ∈ borrow)
    (hg : Link.pair s.global s.global ∈ borrow) (hapart : s.method.EnumeratesApart) (fuel : Nat) {pos : Nat}
    (hpos : StartsAt s.method.bytes pos) :
    Twin (machineBridge K s I) borrow 0 True (run host s.method.bytes fuel pos)
      (run host s.method.bytes fuel pos) Gives := by
  induction fuel generalizing pos with
  | zero =>
    intro keep mc mc' _ hj
    rw [zero_add] at hj
    exact ⟨hj.owns_left, hj.owns_right⟩
  | succ fuel ih =>
    rw [run_succ]
    refine ((twin_step hhost hG hg hapart hpos).knowing (startsAt_of_step hpos)).bind ?_
    rintro _ _ P ⟨⟨pos', rfl, rfl, rfl⟩ | ⟨v, w, rfl, rfl, hP⟩, hnext⟩
    · exact ih (hnext pos' rfl)
    · exact Twin.pure hP

end Interpreter

end MethodJit
