import MethodJit.Interpreter
import MethodJit.Proofs.Keeping
import MethodJit.Proofs.Totality

/-!
# Where the interpreter goes

After an instruction the interpreter goes on at a successor of it: behind its immediates, or at the target
of a branch. It reports a defect of the method only if the instruction is not supported, if the
immediates cannot be read or if a target does not exist.
-/

namespace MethodJit.Interpreter

open Compiler

variable {σ α β : Type} {m : Method} {a : Action} {start pos : Nat} {mc : Machine σ} {I : σ → Prop}
  {host : Host σ}

/-- Where the run can go after an instruction that starts at `start` and whose immediates start at
`pos`. -/
inductive Successor (m : Method) (a : Action) (start pos : Nat) : Nat → Prop
  | onward {next : Nat} (ha : a.ends = false)
    (hread : a.reader m ⟨m.bytes, pos⟩ = .ok () ⟨m.bytes, next⟩) : Successor m a start pos next
  | notTaken {d : Int} {next : Nat} (ha : a.hasTarget = true) (hj : a ≠ .jump)
    (hread : Cursor.s24 ⟨m.bytes, pos⟩ = .ok d ⟨m.bytes, next⟩) : Successor m a start pos next
  | taken {d : Int} {next : Nat} (ha : a.hasTarget = true)
    (hread : Cursor.s24 ⟨m.bytes, pos⟩ = .ok d ⟨m.bytes, next⟩)
    (hrange : 0 ≤ next + d ∧ next + d ≤ m.bytes.size) : Successor m a start pos (next + d).toNat
  | switched {fallback d : Int} {cases : List Int} {next : Nat} (ha : a = .lookupSwitch)
    (hread : readSwitch ⟨m.bytes, pos⟩ = .ok (fallback, cases) ⟨m.bytes, next⟩)
    (hd : d ∈ fallback :: cases) (hrange : 0 ≤ start + d ∧ start + d ≤ m.bytes.size) :
    Successor m a start pos (start + d).toNat

/-- The instruction is supported, and its immediates and its target are as they should be. -/
structure Readable (m : Method) (a : Action) (pos : Nat) : Prop where
  supported : a ≠ .unsupported ∧ a ≠ .lookupSwitch
  reads : ∃ next, a.reader m ⟨m.bytes, pos⟩ = .ok () ⟨m.bytes, next⟩
  fixed : ∀ i, a.fixed? = some i → (i : Int) < m.locals.toInt
  target : a.hasTarget = true → ∃ d next, Cursor.s24 ⟨m.bytes, pos⟩ = .ok d ⟨m.bytes, next⟩ ∧
    0 ≤ next + d ∧ next + d ≤ m.bytes.size

/-- The frame runs the method, with its number of locals. -/
def Steady (m : Method) (f : Frame) : Prop := f.method = m ∧ (f.localSlots.size : Int) = m.locals.toInt

theorem size_setSlot (f : Frame) (s s' : Option Area) (i : Int64) (v : Value) :
    ((f.setSlot s i v).slots s').size = (f.slots s').size := by
  rcases s with _ | _ | _ <;> rcases s' with _ | _ | _ <;> simp [Frame.setSlot, Frame.slots]

theorem settled_steady (m : Method) : Settled (Steady m) where
  slot f s i v h := by
    have hm : (f.setSlot s i v).method = f.method := by rcases s with _ | _ | _ <;> rfl
    have hl : (f.setSlot s i v).locals = f.locals := by rcases s with _ | _ | _ <;> rfl
    refine ⟨hm.trans h.1, ?_⟩
    unfold Frame.localSlots
    rw [hl, size_setSlot]
    exact h.2
  index _ _ h := h
  scope _ _ h := h
  jumps _ _ h := h

/-- How carrying out an instruction can fail. -/
def Fails (m : Method) (a : Action) (pos : Nat) (I : σ → Prop) (f : Fault) (mc : Machine σ) : Prop :=
  (Readable m a pos → ∀ c, f ≠ .code c) ∧ I mc.host

/-- How carrying out an instruction can end. -/
def Goes (m : Method) (a : Action) (start pos : Nat) (I : σ → Prop) (next : Next) (mc : Machine σ) :
    Prop :=
  (Steady m mc.frame ∧ I mc.host) ∧ ∀ pos', next = .goto pos' → Successor m a start pos pos'

theorem ends_of_keeps {x : Act σ α} (hx : Keeps (Steady m) I x) (hs : Steady m mc.frame)
    (hi : I mc.host) :
    Ends x mc (Fails m a pos I) fun _ mc' => Steady m mc'.frame ∧ I mc'.host :=
  (hx mc hs hi).mono (fun _ _ h => ⟨fun _ => h.1, h.2.2⟩) fun _ _ h => h

/-! ## Reading -/

theorem fetch_ends {read : Cursor.Read α} (hadv : Cursor.Advances read) (hi : I mc.host) {at' : Nat}
    (hr : Readable m a pos → ∃ x c, read ⟨m.bytes, at'⟩ = .ok x c) :
    Ends (fetch m.bytes at' read : Act σ (α × Nat)) mc (Fails m a pos I) fun r mc' =>
      mc' = mc ∧ read ⟨m.bytes, at'⟩ = .ok r.1 ⟨m.bytes, r.2⟩ := by
  unfold Ends fetch
  cases hread : read ⟨m.bytes, at'⟩ with
  | ok x c =>
    obtain ⟨hcode, -, -⟩ := hadv _ _ _ hread
    obtain ⟨code, p⟩ := c
    cases hcode
    exact ⟨rfl, rfl⟩
  | error e c =>
    refine ⟨fun h => ?_, hi⟩
    obtain ⟨x, next, hx⟩ := hr h
    rw [hread] at hx
    cases hx

/-- Reading what the immediates of an instruction start with. -/
theorem fetch_first {read : Cursor.Read α} {k : α → Cursor.Read Unit} (hadv : Cursor.Advances read)
    (hi : I mc.host) (heq : a.reader m = read >>= k) :
    Ends (fetch m.bytes pos read : Act σ (α × Nat)) mc (Fails m a pos I) fun r mc' =>
      mc' = mc ∧ read ⟨m.bytes, pos⟩ = .ok r.1 ⟨m.bytes, r.2⟩ := by
  refine fetch_ends hadv hi fun h => ?_
  obtain ⟨next, hnext⟩ := h.reads
  rw [heq] at hnext
  obtain ⟨x, c, hx, -⟩ := bind_eq_ok hnext
  exact ⟨x, c, hx⟩

/-- Reading what follows the first immediate of an instruction. -/
theorem fetch_second {read : Cursor.Read α} {read' : Cursor.Read β} {k : α → β → Cursor.Read Unit}
    (hadv : Cursor.Advances read') (hi : I mc.host)
    (heq : a.reader m = read >>= fun x => read' >>= k x) {x : α} {mid : Nat}
    (hx : read ⟨m.bytes, pos⟩ = .ok x ⟨m.bytes, mid⟩) :
    Ends (fetch m.bytes mid read' : Act σ (β × Nat)) mc (Fails m a pos I) fun r mc' =>
      mc' = mc ∧ read' ⟨m.bytes, mid⟩ = .ok r.1 ⟨m.bytes, r.2⟩ := by
  refine fetch_ends hadv hi fun h => ?_
  obtain ⟨next, hnext⟩ := h.reads
  rw [heq, bind_of_ok hx] at hnext
  obtain ⟨y, c, hy, -⟩ := bind_eq_ok hnext
  exact ⟨y, c, hy⟩

theorem fetchLocal_ends (hs : Steady m mc.frame) {at' : Nat} {E : Fault → Machine σ → Prop}
    {Q : Nat × Nat → Machine σ → Prop}
    (h : Ends (fetch m.bytes at' (Immediate.Kind.local.reader m)) mc E Q) :
    Ends (fetchLocal m.bytes at') mc E Q := by
  unfold fetchLocal
  rw [ends_bind, ends_frame, hs.2]
  exact h

theorem checkFixed_ends (hs : Steady m mc.frame) (hi : I mc.host) {i : Nat} (hfixed : a.fixed? = some i) :
    Ends (checkFixed i) mc (Fails m a pos I) fun _ mc' => mc' = mc := by
  unfold checkFixed
  rw [ends_bind, ends_frame]
  split
  · rename_i hle
    refine ⟨fun h => ?_, hi⟩
    have := h.fixed i hfixed
    have := hs.2
    omega
  · rfl

theorem seek_ends (hi : I mc.host) {at' : Nat} {target : Int}
    (hr : Readable m a pos → 0 ≤ target ∧ target ≤ m.bytes.size) :
    Ends (fetch m.bytes at' (Cursor.seek target) : Act σ (Unit × Nat)) mc
      (Fails m a pos I) fun r mc' =>
        mc' = mc ∧ r.2 = target.toNat ∧ 0 ≤ target ∧ target ≤ m.bytes.size := by
  unfold Ends fetch Cursor.seek
  by_cases h : 0 ≤ target ∧ target ≤ m.bytes.size
  · simp only [h, and_self, if_true]
  · simp only [h, if_false]
    exact ⟨fun hread => absurd (hr hread) h, hi⟩

/-! ## Going on -/

/-- Going on behind the immediates. -/
theorem goes_onward (ha : a.ends = false) {next : Nat}
    (hread : a.reader m ⟨m.bytes, pos⟩ = .ok () ⟨m.bytes, next⟩) {x : Act σ Unit}
    (hx : Keeps (Steady m) I x) (hs : Steady m mc.frame) (hi : I mc.host) :
    Ends (do x; pure (.goto next)) mc (Fails m a pos I) (Goes m a start pos I) := by
  refine (ends_of_keeps hx hs hi).bind fun _ mc' h => ⟨h, fun pos' hpos => ?_⟩
  cases hpos
  exact .onward ha hread

/-- Going on at the target of a branch. -/
theorem seek_goes (ha : a.hasTarget = true) {d : Int} {next : Nat}
    (hread : Cursor.s24 ⟨m.bytes, pos⟩ = .ok d ⟨m.bytes, next⟩) (hs : Steady m mc.frame)
    (hi : I mc.host) :
    Ends (do
      let (_, pos) ← fetch m.bytes next (Cursor.seek (next + d))
      pure (.goto pos)) mc (Fails m a pos I) (Goes m a start pos I) := by
  refine (seek_ends hi fun h => ?_).bind fun ⟨_, pos'⟩ mc₂ ⟨hmc, hpos, hrange⟩ => ?_
  · obtain ⟨d', next', hread', hrange⟩ := h.target ha
    rw [hread] at hread'
    cases hread'
    exact hrange
  · subst hmc
    refine ⟨⟨hs, hi⟩, fun pos'' hpos' => ?_⟩
    cases hpos'
    cases hpos
    exact .taken ha hread hrange

theorem branch_ends (ha : a.hasTarget = true) (hj : a ≠ .jump) (hs : Steady m mc.frame)
    (hi : I mc.host) (take : Bool) :
    Ends (branch m.bytes pos take) mc (Fails m a pos I) (Goes m a start pos I) := by
  unfold branch
  refine (fetch_first Cursor.advances_s24 hi (Action.reader_of_hasTarget ha m)).bind
    fun ⟨d, next⟩ mc₁ ⟨hmc, hread⟩ => ?_
  subst hmc
  cases take with
  | false =>
    refine ⟨⟨hs, hi⟩, fun pos' hpos => ?_⟩
    cases hpos
    exact .notTaken ha hj hread
  | true => exact seek_goes ha hread hs hi

theorem keeps_setLocal (i : Nat) (x : Value) : Keeps (Steady m) I (setLocal i x : Act σ Unit) :=
  (Keeps.readLocal _).bind fun _ => (Keeps.writeLocal (settled_steady m) _ _).bind fun _ =>
    Keeps.onHeap (.releaseBound _)

theorem selectCase_mem (fallback : Int) (cases : List Int) (i : Int32) :
    selectCase fallback cases i ∈ fallback :: cases := by
  unfold selectCase
  split
  · exact List.mem_cons_self
  · cases h : cases[i.toNatClampNeg]? with
    | none => exact List.mem_cons_self
    | some d => exact List.mem_cons_of_mem _ (List.mem_of_getElem? h)

/-- Carrying out an instruction leads to a successor of it, and a defect of the method shows only in an
instruction that is not as it should be. -/
theorem perform_ends (hh : HostKeeps I host) (hs : Steady m mc.frame) (hi : I mc.host) (byte : UInt8) :
    Ends (perform host m.bytes start pos byte a) mc (Fails m a pos I)
      (Goes m a start pos I) := by
  have hF := settled_steady m
  cases a with
  | none => exact goes_onward rfl rfl (Keeps.pure ()) hs hi
  | debug =>
    have heq : Action.debug.reader m = (do
        let _ ← Cursor.byte
        let _ ← Cursor.u30
        let _ ← Cursor.byte
        Cursor.u30) >>= fun _ => pure () := by
      simp only [Action.reader, Layout.skip, bind_assoc]
    refine (fetch_first ?_ hi heq).bind fun ⟨_, next⟩ mc₁ ⟨hmc, hread⟩ => ?_
    · exact Cursor.advances_byte.bind fun _ => Cursor.advances_u30.bind fun _ =>
        Cursor.advances_byte.bind fun _ => Cursor.advances_u30
    · subst hmc
      exact goes_onward rfl (heq ▸ bind_of_ok hread) (Keeps.pure ()) hs hi
  | note =>
    refine (fetch_first Cursor.advances_u30 hi rfl).bind fun ⟨_, next⟩ mc₁ ⟨hmc, hread⟩ => ?_
    subst hmc
    exact goes_onward rfl (bind_of_ok hread) (Keeps.pure ()) hs hi
  | pushByte =>
    refine (fetch_first Cursor.advances_byte hi rfl).bind fun ⟨n, next⟩ mc₁ ⟨hmc, hread⟩ => ?_
    subst hmc
    simpa only [bind_assoc] using goes_onward rfl (bind_of_ok hread)
      ((Keeps.onHeap (.newInt _)).bind fun _ => .push hF _) hs hi
  | pushShort =>
    refine (fetch_first Cursor.advances_u30 hi rfl).bind fun ⟨n, next⟩ mc₁ ⟨hmc, hread⟩ => ?_
    subst hmc
    simpa only [bind_assoc] using goes_onward rfl (bind_of_ok hread)
      ((Keeps.onHeap (.newInt _)).bind fun _ => .push hF _) hs hi
  | pop =>
    simpa only [perform, bind_assoc] using goes_onward (a := .pop) rfl rfl
      ((Keeps.pop hF).bind fun _ => .onHeap (.release _)) hs hi
  | dup =>
    simpa only [perform, bind_assoc] using goes_onward (a := .dup) rfl rfl
      ((Keeps.pop hF).bind fun x => (Keeps.onHeap (.retain x)).bind fun _ =>
        (Keeps.push hF x).bind fun _ => .push hF x) hs hi
  | swap =>
    simpa only [perform, bind_assoc] using goes_onward (a := .swap) rfl rfl
      ((Keeps.pop hF).bind fun b => (Keeps.pop hF).bind fun a => (Keeps.push hF b).bind fun _ =>
        .push hF a) hs hi
  | getLocal =>
    refine (fetchLocal_ends hs (fetch_first (Cursor.advances_kind _ _) hi rfl)).bind
      fun ⟨i, next⟩ mc₁ ⟨hmc, hread⟩ => ?_
    subst hmc
    simpa only [bind_assoc] using goes_onward rfl (bind_of_ok hread)
      ((Keeps.readLocal _).bind fun _ => .pushShared hF _) hs hi
  | setLocal =>
    refine (fetchLocal_ends hs (fetch_first (Cursor.advances_kind _ _) hi rfl)).bind
      fun ⟨i, next⟩ mc₁ ⟨hmc, hread⟩ => ?_
    subst hmc
    simpa only [bind_assoc] using goes_onward rfl (bind_of_ok hread)
      ((Keeps.pop hF).bind fun _ => keeps_setLocal _ _) hs hi
  | kill =>
    refine (fetchLocal_ends hs (fetch_first (Cursor.advances_kind _ _) hi rfl)).bind
      fun ⟨i, next⟩ mc₁ ⟨hmc, hread⟩ => ?_
    subst hmc
    exact goes_onward rfl (bind_of_ok hread) (keeps_setLocal _ _) hs hi
  | stepLocal r =>
    refine (fetchLocal_ends hs (fetch_first (Cursor.advances_kind _ _) hi rfl)).bind
      fun ⟨i, next⟩ mc₁ ⟨hmc, hread⟩ => ?_
    subst hmc
    simpa only [bind_assoc] using goes_onward rfl (bind_of_ok hread)
      ((Keeps.readLocal _).bind fun _ => (Keeps.onHeap (.retain _)).bind fun _ =>
        (Keeps.onHeap (.unary r _)).bind fun _ => keeps_setLocal _ _) hs hi
  | getFixed i =>
    refine (checkFixed_ends hs hi rfl).bind fun _ mc₁ hmc => ?_
    subst hmc
    simpa only [bind_assoc] using goes_onward rfl rfl
      ((Keeps.readLocal _).bind fun _ => .pushShared hF _) hs hi
  | setFixed i =>
    refine (checkFixed_ends hs hi rfl).bind fun _ mc₁ hmc => ?_
    subst hmc
    simpa only [bind_assoc] using goes_onward rfl rfl
      ((Keeps.pop hF).bind fun _ => keeps_setLocal _ _) hs hi
  | returnVoid => exact ⟨⟨hs, hi⟩, nofun⟩
  | returnValue => exact (ends_of_keeps (Keeps.pop hF) hs hi).bind fun _ _ h => ⟨h, nofun⟩
  | throw => exact (ends_of_keeps (Keeps.pop hF) hs hi).bind fun _ _ h => ⟨fun _ => nofun, h.2⟩
  | supply s =>
    simpa only [perform, bind_assoc] using goes_onward (a := .supply s) rfl rfl
      ((Keeps.supply s).bind fun _ => .push hF _) hs hi
  | constant c =>
    rw [perform, ends_bind, ends_frame, hs.1]
    cases c
    all_goals
      refine (fetch_first (Cursor.advances_index _ _) hi rfl).bind
        fun ⟨i, next⟩ mc₁ ⟨hmc, hread⟩ => ?_
      subst hmc
      simpa only [bind_assoc] using goes_onward rfl (bind_of_ok hread)
        ((Keeps.constant _ _).bind fun _ => .push hF _) hs hi
  | frame a =>
    exact goes_onward (a := .frame a) rfl rfl (Keeps.frameAction hF a) hs hi
  | scopeObject =>
    refine (fetch_first Cursor.advances_byte hi rfl).bind fun ⟨i, next⟩ mc₁ ⟨hmc, hread⟩ => ?_
    subst hmc
    exact goes_onward rfl (bind_of_ok hread) (Keeps.indexed hF hh _ _) hs hi
  | named a =>
    rw [perform, ends_bind, ends_frame, hs.1]
    refine (fetch_first (Cursor.advances_index _ _) hi rfl).bind fun ⟨i, next⟩ mc₁ ⟨hmc, hread⟩ => ?_
    subst hmc
    exact goes_onward rfl (bind_of_ok hread) (Keeps.indexed hF hh _ _) hs hi
  | counted a =>
    refine (fetch_first Cursor.advances_u30 hi rfl).bind fun ⟨i, next⟩ mc₁ ⟨hmc, hread⟩ => ?_
    subst hmc
    exact goes_onward rfl (bind_of_ok hread) (Keeps.indexed hF hh _ _) hs hi
  | namedCounted a =>
    rw [perform, ends_bind, ends_frame, hs.1]
    refine (fetch_first (Cursor.advances_index _ _) hi rfl).bind fun ⟨i, mid⟩ mc₁ ⟨hmc, hread⟩ => ?_
    subst hmc
    refine (fetch_second Cursor.advances_u30 hi rfl hread).bind fun ⟨n, next⟩ mc₁ ⟨hmc, hread'⟩ => ?_
    subst hmc
    exact goes_onward rfl ((bind_of_ok hread).trans (bind_of_ok hread')) (Keeps.pair hF hh _ _ _) hs hi
  | hasNext2 =>
    refine (fetchLocal_ends hs (fetch_first (Cursor.advances_kind _ _) hi rfl)).bind
      fun ⟨i, mid⟩ mc₁ ⟨hmc, hread⟩ => ?_
    subst hmc
    refine (fetchLocal_ends hs (fetch_second (Cursor.advances_kind _ _) hi rfl hread)).bind
      fun ⟨j, next⟩ mc₁ ⟨hmc, hread'⟩ => ?_
    subst hmc
    exact goes_onward rfl ((bind_of_ok hread).trans (bind_of_ok hread')) (Keeps.pair hF hh _ _ _) hs hi
  | unary r =>
    simpa only [perform, bind_assoc] using goes_onward (a := .unary r) rfl rfl
      ((Keeps.pop hF).bind fun _ => (Keeps.onHeap (.unary r _)).bind fun _ => .push hF _) hs hi
  | binary r =>
    simpa only [perform, bind_assoc] using goes_onward (a := .binary r) rfl rfl
      ((Keeps.pop hF).bind fun _ => (Keeps.pop hF).bind fun _ =>
        (Keeps.onHeap (.binary r _ _)).bind fun _ => .push hF _) hs hi
  | test t =>
    refine (ends_of_keeps (Keeps.pop hF) hs hi).bind fun x mc₁ ⟨hs₁, hi₁⟩ => ?_
    refine (ends_of_keeps (Keeps.onHeap (.test t x)) hs₁ hi₁).bind fun take mc₂ ⟨hs₂, hi₂⟩ => ?_
    exact branch_ends (a := .test t) rfl nofun hs₂ hi₂ take
  | compare c =>
    refine (ends_of_keeps (Keeps.pop hF) hs hi).bind fun b mc₁ ⟨hs₁, hi₁⟩ => ?_
    refine (ends_of_keeps (Keeps.pop hF) hs₁ hi₁).bind fun a mc₂ ⟨hs₂, hi₂⟩ => ?_
    refine (ends_of_keeps (Keeps.onHeap (.comparison c a b)) hs₂ hi₂).bind
      fun take mc₃ ⟨hs₃, hi₃⟩ => ?_
    exact branch_ends (a := .compare c) rfl nofun hs₃ hi₃ take
  | jump =>
    refine (fetch_first Cursor.advances_s24 hi rfl).bind fun ⟨d, next⟩ mc₁ ⟨hmc, hread⟩ => ?_
    subst hmc
    refine (ends_of_keeps (Keeps.indexed hF hh .jump _) hs hi).bind fun _ mc₁ ⟨hs₁, hi₁⟩ => ?_
    exact seek_goes rfl hread hs₁ hi₁
  | lookupSwitch =>
    refine (fetch_first Cursor.advances_readSwitch hi rfl).bind
      fun ⟨⟨fallback, cases⟩, next⟩ mc₁ ⟨hmc, hread⟩ => ?_
    subst hmc
    refine (ends_of_keeps (Keeps.pop hF) hs hi).bind fun x mc₁ ⟨hs₁, hi₁⟩ => ?_
    rw [ends_bind, ends_get]
    refine (ends_of_keeps (Keeps.onHeap (.release x)) hs₁ hi₁).bind fun _ mc₂ ⟨hs₂, hi₂⟩ => ?_
    refine (seek_ends hi₂ fun h => absurd rfl h.supported.2).bind
      fun ⟨_, pos'⟩ mc₃ ⟨hmc, hpos, hrange⟩ => ?_
    subst hmc
    refine ⟨⟨hs₂, hi₂⟩, fun pos'' hpos' => ?_⟩
    cases hpos'
    cases hpos
    exact .switched rfl hread (selectCase_mem ..) hrange
  | unsupported => exact ⟨fun h => absurd rfl h.supported.1, hi⟩

/-! ## Runs -/

/-- The instruction at a position is as it should be. -/
def ReadableAt (m : Method) (pos : Nat) : Prop :=
  ∃ byte, m.bytes[pos]? = some byte ∧ Readable m (actionOfByte byte) (pos + 1)

/-- The position is a successor of the instruction at another one. -/
def SuccessorAt (m : Method) (pos pos' : Nat) : Prop :=
  ∃ byte, m.bytes[pos]? = some byte ∧ Successor m (actionOfByte byte) pos (pos + 1) pos'

theorem step_ends (hh : HostKeeps I host) (hs : Steady m mc.frame) (hi : I mc.host) (pos : Nat) :
    Ends (step host m.bytes pos) mc
      (fun f mc' => (ReadableAt m pos → ∀ c, f ≠ .code c) ∧ I mc'.host) fun next mc' =>
        (Steady m mc'.frame ∧ I mc'.host) ∧ ∀ pos', next = .goto pos' → SuccessorAt m pos pos' := by
  unfold step
  cases hbyte : m.bytes[pos]? with
  | none =>
    refine ⟨?_, hi⟩
    rintro ⟨byte, hbyte', -⟩
    rw [hbyte] at hbyte'
    cases hbyte'
  | some byte =>
    refine (perform_ends hh hs hi byte).mono (fun f _ hf => ⟨?_, hf.2⟩) fun next mc' hg =>
      ⟨hg.1, fun pos' hpos => ⟨byte, hbyte, hg.2 pos' hpos⟩⟩
    rintro ⟨byte', hbyte', hread⟩
    rw [hbyte] at hbyte'
    cases hbyte'
    exact hf.1 hread

/-- The machine at a position, after a number of instructions. -/
inductive Reaches (host : Host σ) (code : Array UInt8) (mc : Machine σ) : Nat → Machine σ → Prop
  | start : Reaches host code mc 0 mc
  | step {pos pos' : Nat} {mc₁ mc₂ : Machine σ} (h : Reaches host code mc pos mc₁)
    (hstep : step host code pos mc₁ = .ok (.goto pos') mc₂) : Reaches host code mc pos' mc₂

/-- What holds of the first position and is passed on to successors holds of all positions that are
reached. -/
theorem Reaches.of_successor (hh : HostKeeps I host) (hs : Steady m mc.frame) (hi : I mc.host)
    {P : Nat → Prop} (h₀ : P 0) (hP : ∀ pos pos', P pos → SuccessorAt m pos pos' → P pos')
    {mc' : Machine σ} (h : Reaches host m.bytes mc pos mc') :
    P pos ∧ Steady m mc'.frame ∧ I mc'.host := by
  induction h with
  | start => exact ⟨h₀, hs, hi⟩
  | step _ hstep ih =>
    obtain ⟨hpos, hs₁, hi₁⟩ := ih
    obtain ⟨hkept, hsucc⟩ := (step_ends hh hs₁ hi₁ _).ok hstep
    exact ⟨hP _ _ hpos (hsucc _ rfl), hkept⟩

/-- A run that fails stops at some position that it has reached. -/
theorem run_error {fuel : Nat} {f : Fault} {mc₀ mc₁ mc' : Machine σ} {code : Array UInt8}
    (hr : Reaches host code mc₀ pos mc₁) (h : run host code fuel pos mc₁ = .error f mc') :
    f = .exhausted ∨ ∃ pos' mc₂, Reaches host code mc₀ pos' mc₂ ∧
      step host code pos' mc₂ = .error f mc' := by
  induction fuel generalizing pos mc₁ with
  | zero =>
    cases h
    exact .inl rfl
  | succ fuel ih =>
    unfold run at h
    cases hstep : step host code pos mc₁ with
    | ok next mc₂ =>
      cases next with
      | goto pos' =>
        rw [hstep] at h
        exact ih (hr.step hstep) h
      | done v =>
        rw [hstep] at h
        cases h
    | error f' mc₂ =>
      rw [hstep] at h
      cases h
      exact .inr ⟨pos, mc₁, hr, hstep⟩

/-- A run keeps what the steps keep. -/
theorem run_ends (hh : HostKeeps I host) (hs : Steady m mc.frame) (hi : I mc.host) (fuel pos : Nat) :
    Ends (run host m.bytes fuel pos) mc (fun _ mc' => I mc'.host) fun _ mc' => I mc'.host := by
  induction fuel generalizing pos mc with
  | zero => exact hi
  | succ fuel ih =>
    have hstep := step_ends hh hs hi pos
    unfold Ends run
    cases hnext : step host m.bytes pos mc with
    | error f mc' => exact (hstep.error hnext).2
    | ok next mc' =>
      obtain ⟨⟨hs', hi'⟩, -⟩ := hstep.ok hnext
      cases next with
      | goto pos' => exact ih hs' hi' pos'
      | done v => exact hi'

theorem reporting_ends {x : Act σ α} {E : Fault → Machine σ → Prop} {Q : α → Machine σ → Prop}
    (h : Ends x mc E Q) (hE : ∀ c mc', E (.code c) mc' → E (.code c.reported) mc') :
    Ends (reporting x) mc E Q := by
  unfold Ends reporting
  cases hx : x mc with
  | ok a mc' => exact h.ok hx
  | error f mc' =>
    have hf := h.error hx
    cases f with
    | code c => exact hE c mc' hf
    | _ => exact hf

/-- The frame that is made for a method runs it. -/
theorem steady_make? {receiver global : Value} {args : List Value} {f : Frame}
    (h : Frame.make? m receiver args global = some f) : Steady m f := by
  unfold Frame.make? at h
  split at h
  · cases h
  · rename_i hneg
    cases h
    refine ⟨rfl, ?_⟩
    have h0 : 0 ≤ m.locals := Int64.not_lt.1 fun hlt => hneg (.inl hlt)
    have h0 : (0 : Int) ≤ m.locals.toInt := Int64.le_iff_toInt_le.1 h0
    simp only [Frame.localSlots, Frame.slots, Array.size_replicate]
    exact Int.toNat_of_nonneg h0

end MethodJit.Interpreter
