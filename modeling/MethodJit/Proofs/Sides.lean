import MethodJit.Proofs.Decoding

/-!
# Runs side by side

A `Side` is a run that stands at some place in the code of a method: it goes on as an action, and the states
from which it does are related to lanes. A side carries out an action on its lane if it goes on as another
side, which stands for the new lane. Two sides that carry out actions on lanes in lockstep end alike if the
sides behind them do. Calls of routines on the frame need everything in its place.
-/

namespace MethodJit

open Compiler Interpreter

/-- A run from some place on. -/
structure Side (σ : Type) where
  /-- The machine stands for the lane at this place. -/
  fits : Machine σ → Lane → Prop
  run : Act σ Value

/-- What a run does next: it goes on at a position, ends with a result, throws a value, or calls a routine and
then goes on. -/
inductive Leap
  | goto (pos : Nat)
  | done (v : Value)
  | raise (v : Value)
  | call (c : FrameCall) (next : Nat)

/-- Two runs that do the same next, with what they hand over. -/
inductive Leap.Alike : Leap → Leap → Multiset Link → Prop
  | goto (pos : Nat) : Alike (.goto pos) (.goto pos) 0
  | done (v w : Value) : Alike (.done v) (.done w) {Link.pair v w}
  | raise (v w : Value) : Alike (.raise v) (.raise w) {Link.pair v w}
  | call (c : FrameCall) {n : Nat} (hc : c.Proper n) (next : Nat) : Alike (.call c next) (.call c next) 0

variable {σ α β γ : Type} {host : Host σ} {c : Prop} {S S' T : Side σ} {y : LaneM β} {g : β → LaneM γ}

/-- Everything is in the frame. -/
def Machine.Real (mc : Machine σ) (ℓ : Lane) : Prop := ∃ V, mc.frame.Shows V ∧ ℓ = V.lane mc.heap

theorem Compiler.Broken.mono {s : σ} {ε : Fault} {mc : Machine σ} {ℓ : Lane} {c' : Prop}
    (h : Broken c s ε mc ℓ) (hc : c' → c) : Broken c' s ε mc ℓ := { h with whole := fun hc' => h.whole (hc hc') }

/-- How a run that performs an action first goes on, with everything in its place. -/
def Resulting (x : Act σ Unit) (mc : Machine σ) (r : EStateM.Result Fault (Machine σ) Value) (N : Side σ → Prop) :
    Prop :=
  Ends x mc (fun ε mc' => r = .error ε mc') fun _ mc' => ∀ V, mc'.frame.Shows V →
    ∃ T, r = T.run mc' ∧ T.fits mc' (V.lane mc'.heap) ∧ N T

namespace Side

/-- The run carries out an action on its lane and goes on as a side of which `N` holds. -/
def Carries (S : Side σ) (c : Prop) (y : LaneM β) (N : β → Side σ → Prop) : Prop :=
  ∀ mc ℓ, S.fits mc ℓ →
    Ends y ℓ (fun ε ℓ' => ∃ mc', S.run mc = .error ε mc' ∧ Broken c mc.host ε mc' ℓ') fun b ℓ' =>
      ∃ T mc', S.run mc = T.run mc' ∧ T.fits mc' ℓ' ∧ mc'.host = mc.host ∧ N b T

/-- The run performs an action on the frame, in which everything is in its place, and goes on as a side of
which `N` holds. -/
def Calls (S : Side σ) (x : Act σ Unit) (N : Side σ → Prop) : Prop :=
  ∀ mc ℓ, S.fits mc ℓ → mc.Real ℓ ∧ Resulting x mc (S.run mc) N

/-- The run does what comes next. -/
def Lands (host : Host σ) (N : Nat → Side σ → Prop) (S : Side σ) : Leap → Prop
  | .goto pos => N pos S
  | .done v => ∀ mc ℓ, S.fits mc ℓ → mc.Real ℓ ∧ S.run mc = .ok v mc
  | .raise v => ∀ mc ℓ, S.fits mc ℓ → mc.Real ℓ ∧ S.run mc = .error (.thrown v) mc
  | .call k next => S.Calls (k.run host) (N next)

/-- The run carries out an instruction, which is an action on the lane and what comes next. -/
def Does (host : Host σ) (S : Side σ) (c : Prop) (y : LaneM Leap) (N : Nat → Side σ → Prop) : Prop :=
  S.Carries c y fun leap T => T.Lands host N leap

theorem Carries.mono {c' : Prop} {N N' : β → Side σ → Prop} (h : S.Carries c y N) (hc : c' → c)
    (hN : ∀ b T, N b T → N' b T) : S.Carries c' y N' := by
  intro mc ℓ hf
  refine (h mc ℓ hf).mono ?_ ?_
  · rintro ε ℓ' ⟨mc', hrun, hbroken⟩
    exact ⟨mc', hrun, hbroken.mono hc⟩
  · rintro b ℓ' ⟨T, mc', hrun, hfits, hhost, hb⟩
    exact ⟨T, mc', hrun, hfits, hhost, hN b T hb⟩

/-- The sides behind the action are looked at in another form. -/
theorem Carries.imp {N N' : β → Side σ → Prop} (h : S.Carries c y N)
    (hN : ∀ b T, N b T → ∀ mc ℓ, T.fits mc ℓ → ∃ T', T.run mc = T'.run mc ∧ T'.fits mc ℓ ∧ N' b T') :
    S.Carries c y N' := by
  intro mc ℓ hf
  refine Ends.imp (h mc ℓ hf) ?_
  rintro b ℓ' ⟨T, mc', hrun, hfits, hhost, hb⟩
  obtain ⟨T', hrun', hfits', hb'⟩ := hN b T hb mc' ℓ' hfits
  exact ⟨T', mc', hrun.trans hrun', hfits', hhost, hb'⟩

theorem Carries.pure {b : β} {N : β → Side σ → Prop} (h : N b S) : S.Carries c (pure b) N :=
  fun mc _ hf => ⟨S, mc, rfl, hf, rfl, h⟩

theorem Carries.bind {N : β → Side σ → Prop} {M : γ → Side σ → Prop} (h : S.Carries c y N)
    (hg : ∀ b T, N b T → T.Carries c (g b) M) : S.Carries c (y >>= g) M := by
  intro mc ℓ hf
  have h := h mc ℓ hf
  rw [ends_bind]
  refine h.imp ?_
  rintro b ℓ₁ ⟨T, mc₁, hrun, hfits, hhost, hb⟩
  refine (hg b T hb mc₁ ℓ₁ hfits).mono ?_ ?_
  · rintro ε ℓ' ⟨mc', hrun', hbroken⟩
    exact ⟨mc', hrun.trans hrun', hhost ▸ hbroken⟩
  · rintro d ℓ' ⟨T', mc', hrun', hfits', hhost', hd⟩
    exact ⟨T', mc', hrun.trans hrun', hfits', hhost'.trans hhost, hd⟩

theorem Calls.mono {x : Act σ Unit} {N N' : Side σ → Prop} (h : S.Calls x N) (hN : ∀ T, N T → N' T) :
    S.Calls x N' := by
  intro mc ℓ hf
  obtain ⟨hreal, hcall⟩ := h mc ℓ hf
  refine ⟨hreal, Ends.imp hcall ?_⟩
  intro _ mc' hnext V hV
  obtain ⟨T, hrun, hfits, hT⟩ := hnext V hV
  exact ⟨T, hrun, hfits, hN T hT⟩

end Side

/-! ## In lockstep -/

section Lockstep

variable {K : Origin} {s : Setting} {I : σ → Prop} {keep : Multiset Link} {G borrow : List Link}
  {Φ : EStateM.Result Fault (Machine σ) Value → EStateM.Result Fault (Machine σ) Value → Prop}

/-- The states of two runs stand for lanes that are joined. -/
structure Abreast (K : Origin) (s : Setting) (I : σ → Prop) (S S' : Side σ) (P : Multiset Link)
    (mc mc' : Machine σ) : Prop where
  host : mc.host = mc'.host
  inv : I mc.host
  lanes : ∃ n ℓ ℓ', S.fits mc ℓ ∧ S'.fits mc' ℓ' ∧ Lane.Joined K { s with jumps := n } P ℓ ℓ'

/-- Two sides that end as `Φ` says, whenever they start abreast. -/
def Meets (K : Origin) (s : Setting) (I : σ → Prop) (keep : Multiset Link)
    (Φ : EStateM.Result Fault (Machine σ) Value → EStateM.Result Fault (Machine σ) Value → Prop)
    (S S' : Side σ) : Prop :=
  ∀ mc mc', Abreast K s I S S' keep mc mc' → Φ (S.run mc) (S'.run mc')

/-- Two runs that fail in the middle of actions on lanes. -/
theorem agree_of_broken {t : Prop} {β β' : Type} {R : β → β' → Multiset Link → Prop} {n : Nat} {st : σ} (hI : I st)
    {ε ε' : Fault} {ℓ ℓ' : Lane} {mc mc' : Machine σ} (hb : Broken t st ε mc ℓ) (hb' : Broken t st ε' mc' ℓ')
    (hcode : t → ∀ e, ε ≠ .code e)
    (h : Agree (laneBridge K { s with jumps := n }) keep t R (.error ε ℓ) (.error ε' ℓ')) :
    Agree (machineBridge K s I) keep True Gives (.error ε mc) (.error ε' mc') := by
  have hleft (ho : ℓ.Owns (lefts keep)) : mc.Owns (lefts keep) := .of_covers hb.covers hb.heap ho
  have hright (ho : ℓ'.Owns (rights keep)) : mc'.Owns (rights keep) := .of_covers hb'.covers hb'.heap ho
  have hhost : mc.host = mc'.host := hb.host.trans hb'.host.symm
  cases h.cases with
  | bounds hl => exact .of_bounds (hleft hl)
  | endless hl hr | exhausted hl hr => exact ⟨hleft hl, hright hr⟩
  | thrown ht hj =>
    obtain ⟨V, hf, rfl⟩ := hb.whole ht _ rfl
    obtain ⟨V', hf', rfl⟩ := hb'.whole ht _ rfl
    exact ⟨trivial, hhost, hb.host ▸ hI, V, V', n, hf, hf', hj⟩
  | code ht _ => exact absurd rfl (hcode ht _)

/-- Two sides that carry out actions on lanes in lockstep end as `Φ` says if the sides behind them do. -/
theorem Meets.of_carries {t : Prop} {β β' : Type} {y : LaneM β} {y' : LaneM β'} {N : β → Side σ → Prop}
    {N' : β' → Side σ → Prop} {R : β → β' → Multiset Link → Prop}
    (hΦ : ∀ r r', Agree (machineBridge K s I) keep True Gives r r' → Φ r r')
    (hS : S.Carries t y N) (hS' : S'.Carries t y' N')
    (hy : ∀ n, Twin (laneBridge K { s with jumps := n }) borrow 0 t y y' R) (hb : ∀ l ∈ borrow, l ∈ keep)
    (hcode : t → ∀ ℓ, Ends y ℓ (fun ε _ => ∀ e, ε ≠ .code e) fun _ _ => True)
    (hnext : ∀ b b' P T T', R b b' P → N b T → N' b' T' → Meets K s I (P + keep) Φ T T') : Meets K s I keep Φ S S' := by
  intro mc mc' ⟨hhost, hI, n, ℓ, ℓ', hf, hf', hj⟩
  have hagree := hy n keep ℓ ℓ' hb ((zero_add keep).symm ▸ hj)
  have hS := hS mc ℓ hf
  have hS' := hS' mc' ℓ' hf'
  cases hrun : y ℓ with
  | ok b ℓ₁ =>
    obtain ⟨T, mc₁, heq, hfits, hhost₁, hN⟩ := hS.ok hrun
    cases hrun' : y' ℓ' with
    | ok b' ℓ₁' =>
      obtain ⟨T', mc₁', heq', hfits', hhost₁', hN'⟩ := hS'.ok hrun'
      rw [hrun, hrun'] at hagree
      obtain ⟨P, hP, hj₁⟩ := hagree
      rw [heq, heq']
      refine hnext b b' P T T' hP hN hN' mc₁ mc₁' ⟨?_, ?_, n, ℓ₁, ℓ₁', hfits, hfits', hj₁⟩
      · rw [hhost₁, hhost₁', hhost]
      · rwa [hhost₁]
    | error ε ℓ₁' =>
      rw [hrun, hrun'] at hagree
      exact hagree.elim
  | error ε ℓ₁ =>
    obtain ⟨mc₁, heq, hbroken⟩ := hS.error hrun
    rw [heq]
    apply hΦ
    cases hrun' : y' ℓ' with
    | ok b' ℓ₁' =>
      rw [hrun, hrun'] at hagree
      cases hagree.cases with
      | bounds hl => exact .of_bounds (.of_covers hbroken.covers hbroken.heap hl)
    | error ε' ℓ₁' =>
      obtain ⟨mc₁', heq', hbroken'⟩ := hS'.error hrun'
      rw [hrun, hrun'] at hagree
      rw [heq']
      refine agree_of_broken hI hbroken (hhost ▸ hbroken') (fun ht => ?_) hagree
      exact (hcode ht ℓ).error hrun

/-- Two runs that perform an action in lockstep first. -/
theorem Resulting.meet {x : Act σ Unit} {N N' : Side σ → Prop} {mc mc' : Machine σ}
    {r r' : EStateM.Result Fault (Machine σ) Value}
    (hΦ : ∀ r r', Agree (machineBridge K s I) keep True Gives r r' → Φ r r')
    (hagree : Agree (machineBridge K s I) keep True Done (x mc) (x mc')) (hr : Resulting x mc r N)
    (hr' : Resulting x mc' r' N') (hnext : ∀ T T', N T → N' T' → Meets K s I keep Φ T T') : Φ r r' := by
  generalize hrun : x mc = rx at hagree
  generalize hrun' : x mc' = rx' at hagree
  have herror {ε : Fault} {mc₁ : Machine σ} (hx : x mc = .error ε mc₁) : r = .error ε mc₁ := hr.error hx
  have herror' {ε : Fault} {mc₁ : Machine σ} (hx : x mc' = .error ε mc₁) : r' = .error ε mc₁ := hr'.error hx
  cases hagree.cases with
  | ok h =>
    obtain ⟨P, hP, hhost₁, hI₁, V₁, V₁', k, hV₁, hV₁', hj₁⟩ := h
    obtain ⟨T, heq, hfits, hN⟩ := hr.ok hrun V₁ hV₁
    obtain ⟨T', heq', hfits', hN'⟩ := hr'.ok hrun' V₁' hV₁'
    rw [hP, zero_add] at hj₁
    rw [heq, heq']
    exact hnext T T' hN hN' _ _ ⟨hhost₁, hI₁, k, _, _, hfits, hfits', hj₁⟩
  | bounds hl =>
    rw [herror hrun]
    exact hΦ _ _ (.of_bounds hl)
  | endless hl hr | exhausted hl hr =>
    rw [herror hrun, herror' hrun']
    exact hΦ _ _ ⟨hl, hr⟩
  | thrown ht hj =>
    rw [herror hrun, herror' hrun']
    exact hΦ _ _ ⟨ht, hj⟩
  | code ht hj =>
    rw [herror hrun, herror' hrun']
    exact hΦ _ _ ⟨ht, rfl, hj⟩

/-- Two sides that call the same routine. -/
theorem Meets.of_calls {x : Act σ Unit} {N N' : Side σ → Prop}
    (hΦ : ∀ r r', Agree (machineBridge K s I) keep True Gives r r' → Φ r r') (hS : S.Calls x N) (hS' : S'.Calls x N')
    (hx : Twin (machineBridge K s I) borrow 0 True x x Done) (hb : ∀ l ∈ borrow, l ∈ keep)
    (hnext : ∀ T T', N T → N' T' → Meets K s I keep Φ T T') : Meets K s I keep Φ S S' := by
  intro mc mc' ⟨hhost, hI, n, ℓ, ℓ', hf, hf', hj⟩
  obtain ⟨⟨V, hV, hℓ⟩, hS⟩ := hS mc ℓ hf
  obtain ⟨⟨V', hV', hℓ'⟩, hS'⟩ := hS' mc' ℓ' hf'
  rw [hℓ, hℓ'] at hj
  have hagree := hx keep mc mc' hb ⟨hhost, hI, V, V', n, hV, hV', (zero_add keep).symm ▸ hj⟩
  exact Resulting.meet hΦ hagree hS hS' hnext

theorem Abreast.joined {P : Multiset Link} {mc mc' : Machine σ} (h : Abreast K s I S S' P mc mc')
    (hreal : ∀ ℓ, S.fits mc ℓ → mc.Real ℓ) (hreal' : ∀ ℓ, S'.fits mc' ℓ → mc'.Real ℓ) :
    Machine.Joined K s I P mc mc' := by
  obtain ⟨hhost, hI, n, ℓ, ℓ', hf, hf', hj⟩ := h
  obtain ⟨V, hV, rfl⟩ := hreal ℓ hf
  obtain ⟨V', hV', rfl⟩ := hreal' ℓ' hf'
  exact ⟨hhost, hI, V, V', n, hV, hV', hj⟩

/-- Two sides that carry out the same instruction end as `Φ` says if the sides at the positions after it do. -/
theorem Meets.of_does {t : Prop} {y y' : LaneM Leap} {N N' : Nat → Side σ → Prop}
    (hΦ : ∀ r r', Agree (machineBridge K s I) keep True Gives r r' → Φ r r')
    (hhost : Faithful K I G host) (hG : ∀ l ∈ G, l ∈ keep) (hg : Link.pair s.global s.global ∈ keep)
    (hS : S.Does host t y N) (hS' : S'.Does host t y' N')
    (hy : ∀ n, Twin (laneBridge K { s with jumps := n }) [Link.pair s.global s.global] 0 t y y' Leap.Alike)
    (hcode : t → ∀ ℓ, Ends y ℓ (fun ε _ => ∀ e, ε ≠ .code e) fun _ _ => True)
    (hnext : ∀ pos T T', N pos T → N' pos T' → Meets K s I keep Φ T T') : Meets K s I keep Φ S S' := by
  have hb : ∀ l ∈ [Link.pair s.global s.global], l ∈ keep := by
    rintro l hl
    rw [List.mem_singleton.1 hl]
    exact hg
  refine .of_carries hΦ hS hS' hy hb hcode fun leap leap' P T T' hP hT hT' => ?_
  cases hP with
  | goto pos =>
    rw [zero_add]
    exact hnext pos T T' hT hT'
  | done v w =>
    intro mc mc' habreast
    have hj := habreast.joined (fun ℓ hf => (hT mc ℓ hf).1) fun ℓ hf => (hT' mc' ℓ hf).1
    obtain ⟨-, -, n, ℓ, ℓ', hf, hf', -⟩ := habreast
    rw [(hT mc ℓ hf).2, (hT' mc' ℓ' hf').2]
    exact hΦ _ _ ⟨_, rfl, hj⟩
  | raise v w =>
    intro mc mc' habreast
    have hj := habreast.joined (fun ℓ hf => (hT mc ℓ hf).1) fun ℓ hf => (hT' mc' ℓ hf).1
    obtain ⟨-, -, n, ℓ, ℓ', hf, hf', -⟩ := habreast
    rw [(hT mc ℓ hf).2, (hT' mc' ℓ' hf').2]
    exact hΦ _ _ ⟨trivial, hj⟩
  | call k hk next =>
    rw [zero_add]
    have htwin : Twin (machineBridge K s I) (Link.pair s.global s.global :: G) 0 True (k.run host) (k.run host) Done :=
      FrameCall.twin hhost (fun _ hl => List.mem_cons_of_mem _ hl) List.mem_cons_self hk
    refine .of_calls hΦ hT hT' htwin ?_ fun T T' hN hN' => hnext next T T' hN hN'
    rintro l hl
    rcases List.mem_cons.1 hl with rfl | hl
    · exact hg
    · exact hG l hl

end Lockstep

end MethodJit
