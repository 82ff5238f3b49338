import Mathlib.Algebra.Order.Group.Multiset
import Mathlib.Data.Multiset.Bind
import Mathlib.Tactic.Abel
import MethodJit.Proofs.Outcome

/-!
# Two runs in lockstep

Two runs are compared by what they own. A `Link` is a value in the hands of both of them, or a reference
that only one of them still holds. A `Bridge` tells when the states of two runs belong together, given
the links. `Twin` says of two actions that they take links and give others, and that they end the same
way; a run on the left that leaves its bounds is not followed further. Either run goes on owning what it
held before, also when it fails, so that it can be given up afterwards.
-/

namespace MethodJit

/-- A value in the hands of a run: an object, to which the run owns a reference, or a number of which no
object has been made. -/
inductive Item
  | object (v : Value)
  | int (n : Int32)
deriving DecidableEq

def Item.refs : Item → Multiset Value
  | .object v => {v}
  | .int _ => 0

inductive Link
  | both (x y : Item)
  | left (v : Value)
  | right (v : Value)

namespace Link

/-- Two objects that stand for the same. -/
def pair (v w : Value) : Link := .both (.object v) (.object w)

def lefts : Link → Multiset Value
  | .both x _ => x.refs
  | .left v => {v}
  | .right _ => 0

def rights : Link → Multiset Value
  | .both _ y => y.refs
  | .left _ => 0
  | .right v => {v}

end Link

/-- What the run on the left owns. -/
def lefts (P : Multiset Link) : Multiset Value := P.bind Link.lefts

/-- What the run on the right owns. -/
def rights (P : Multiset Link) : Multiset Value := P.bind Link.rights

variable {P Q : Multiset Link} {l : Link} {v w : Value}

@[simp] theorem lefts_zero : lefts 0 = 0 := rfl
@[simp] theorem rights_zero : rights 0 = 0 := rfl
@[simp] theorem lefts_add : lefts (P + Q) = lefts P + lefts Q := Multiset.add_bind ..
@[simp] theorem rights_add : rights (P + Q) = rights P + rights Q := Multiset.add_bind ..
@[simp] theorem lefts_singleton : lefts {l} = l.lefts := Multiset.singleton_bind ..
@[simp] theorem rights_singleton : rights {l} = l.rights := Multiset.singleton_bind ..
@[simp] theorem lefts_pair : (Link.pair v w).lefts = {v} := rfl
@[simp] theorem rights_pair : (Link.pair v w).rights = {w} := rfl

structure Bridge (σ σ' : Type) where
  /-- The states of two runs that own the links belong together. -/
  joined : Multiset Link → σ → σ' → Prop
  /-- The states in which both runs fail belong together. -/
  failed : Multiset Link → σ → σ' → Prop
  /-- The run on the left owns these references. -/
  left : Multiset Value → σ → Prop
  right : Multiset Value → σ' → Prop
  joined_left : ∀ P s s', joined P s s' → left (lefts P) s
  joined_right : ∀ P s s', joined P s s' → right (rights P) s'
  left_mono : ∀ own more s, left (own + more) s → left own s
  right_mono : ∀ own more s, right (own + more) s → right own s

/-- Failures need no other states than successes. -/
def Bridge.Plain {σ σ' : Type} (π : Bridge σ σ') : Prop := π.failed = π.joined

variable {σ σ' α β γ δ : Type} {π : Bridge σ σ'} {keep pre : Multiset Link} {borrow : List Link}
  {t t' : Prop}

/-- How two results belong together: successes as `J` says, failures by the bridge, with the links that are
kept. If `t` is false, nothing is thrown. -/
def Agreeing (π : Bridge σ σ') (keep : Multiset Link) (t : Prop) (J : α → β → σ → σ' → Prop) :
    EStateM.Result Fault σ α → EStateM.Result Fault σ' β → Prop
  | .ok a s, .ok b s' => J a b s s'
  | .error .bounds s, _ => π.left (lefts keep) s
  | .error .endless s, .error .endless s' => π.left (lefts keep) s ∧ π.right (rights keep) s'
  | .error .exhausted s, .error .exhausted s' => π.left (lefts keep) s ∧ π.right (rights keep) s'
  | .error (.thrown v) s, .error (.thrown w) s' => t ∧ π.failed ({Link.pair v w} + keep) s s'
  | .error (.code e) s, .error (.code e') s' => t ∧ e = e' ∧ π.failed keep s s'
  | _, _ => False

/-- Two results that belong together, with links beside those that are kept. -/
def Agree (π : Bridge σ σ') (keep : Multiset Link) (t : Prop) (R : α → β → Multiset Link → Prop) :
    EStateM.Result Fault σ α → EStateM.Result Fault σ' β → Prop :=
  Agreeing π keep t fun a b s s' => ∃ P, R a b P ∧ π.joined (P + keep) s s'

/-- Two actions that borrow links, take the links `pre` and give links that satisfy `R` together with
the results. -/
def Twin (π : Bridge σ σ') (borrow : List Link) (pre : Multiset Link) (t : Prop)
    (x : EStateM Fault σ α) (y : EStateM Fault σ' β) (R : α → β → Multiset Link → Prop) : Prop :=
  ∀ keep s s', (∀ l ∈ borrow, l ∈ keep) → π.joined (pre + keep) s s' →
    Agree π keep t R (x s) (y s')

/-- Equal results, with which nothing is given. -/
def Same (a b : α) (P : Multiset Link) : Prop := a = b ∧ P = 0

/-- Two values that stand for the same, with a reference to each. -/
def Gives (v w : Value) (P : Multiset Link) : Prop := P = {Link.pair v w}

/-- Nothing is given. -/
def Done (_ _ : Unit) (P : Multiset Link) : Prop := P = 0

variable {x : EStateM Fault σ α} {y : EStateM Fault σ' β} {f : α → EStateM Fault σ γ}
  {g : β → EStateM Fault σ' δ} {R R' : α → β → Multiset Link → Prop}
  {S : γ → δ → Multiset Link → Prop}

variable {J J' : α → β → σ → σ' → Prop} {J₂ : γ → δ → σ → σ' → Prop}

/-- The ways in which two results can belong together. -/
inductive Agreeing.Case (π : Bridge σ σ') (keep : Multiset Link) (t : Prop) (J : α → β → σ → σ' → Prop) :
    EStateM.Result Fault σ α → EStateM.Result Fault σ' β → Prop
  | ok {a : α} {b : β} {s : σ} {s' : σ'} (h : J a b s s') : Case π keep t J (.ok a s) (.ok b s')
  | bounds {s : σ} {r : EStateM.Result Fault σ' β} (h : π.left (lefts keep) s) :
    Case π keep t J (.error .bounds s) r
  | endless {s : σ} {s' : σ'} (hl : π.left (lefts keep) s) (hr : π.right (rights keep) s') :
    Case π keep t J (.error .endless s) (.error .endless s')
  | exhausted {s : σ} {s' : σ'} (hl : π.left (lefts keep) s) (hr : π.right (rights keep) s') :
    Case π keep t J (.error .exhausted s) (.error .exhausted s')
  | thrown {v w : Value} {s : σ} {s' : σ'} (ht : t) (h : π.failed ({Link.pair v w} + keep) s s') :
    Case π keep t J (.error (.thrown v) s) (.error (.thrown w) s')
  | code {e : CodeFault} {s : σ} {s' : σ'} (ht : t) (h : π.failed keep s s') :
    Case π keep t J (.error (.code e) s) (.error (.code e) s')

theorem Agreeing.cases {rx : EStateM.Result Fault σ α} {ry : EStateM.Result Fault σ' β}
    (h : Agreeing π keep t J rx ry) : Case π keep t J rx ry := by
  unfold Agreeing at h
  split at h
  · exact .ok h
  · exact .bounds h
  · exact .endless h.1 h.2
  · exact .exhausted h.1 h.2
  · exact .thrown h.1 h.2
  · obtain ⟨ht, rfl, h⟩ := h
    exact .code ht h
  · exact h.elim

theorem Agreeing.of_bounds {s : σ} {ry : EStateM.Result Fault σ' β} (h : π.left (lefts keep) s) :
    Agreeing π keep t J (.error .bounds s) ry := by
  cases ry <;> exact h

theorem Agreeing.imp {rx : EStateM.Result Fault σ α} {ry : EStateM.Result Fault σ' β}
    (h : Agreeing π keep t J rx ry) (ht : t → t') (hJ : ∀ a b s s', J a b s s' → J' a b s s') :
    Agreeing π keep t' J' rx ry := by
  cases h.cases with
  | ok hr => exact hJ _ _ _ _ hr
  | bounds hl => exact .of_bounds hl
  | endless hl hr | exhausted hl hr => exact ⟨hl, hr⟩
  | thrown h₀ hf => exact ⟨ht h₀, hf⟩
  | code h₀ hf => exact ⟨ht h₀, rfl, hf⟩

theorem Agreeing.bind {s : σ} {s' : σ'} (h : Agreeing π keep t J (x s) (y s'))
    (hf : ∀ a b s s', J a b s s' → Agreeing π keep t J₂ (f a s) (g b s')) :
    Agreeing π keep t J₂ ((x >>= f) s) ((y >>= g) s') := by
  generalize hx : x s = rx at h
  generalize hy : y s' = ry at h
  cases h.cases with
  | ok hr =>
    rw [bind_of_ok hx, bind_of_ok hy]
    exact hf _ _ _ _ hr
  | bounds hl =>
    rw [bind_of_error hx]
    exact .of_bounds hl
  | endless hl hr | exhausted hl hr =>
    rw [bind_of_error hx, bind_of_error hy]
    exact ⟨hl, hr⟩
  | thrown ht hj =>
    rw [bind_of_error hx, bind_of_error hy]
    exact ⟨ht, hj⟩
  | code ht hj =>
    rw [bind_of_error hx, bind_of_error hy]
    exact ⟨ht, rfl, hj⟩

/-- A result of an action on a part of the state, as one on the whole. -/
def within {τ : Type} (f : σ → τ) : EStateM.Result Fault σ α → EStateM.Result Fault τ α
  | .ok a s => .ok a (f s)
  | .error e s => .error e (f s)

/-- Results that belong together on parts of the states do so on the whole. -/
theorem Agreeing.within {τ τ' : Type} {π' : Bridge τ τ'} {keep' : Multiset Link} {f : σ → τ} {g : σ' → τ'}
    {J₂ : α → β → τ → τ' → Prop} {rx : EStateM.Result Fault σ α} {ry : EStateM.Result Fault σ' β}
    (h : Agreeing π keep t J rx ry)
    (hleft : ∀ s, π.left (lefts keep) s → π'.left (lefts keep') (f s))
    (hright : ∀ s, π.right (rights keep) s → π'.right (rights keep') (g s))
    (hfailed : ∀ P s s', π.failed (P + keep) s s' → π'.failed (P + keep') (f s) (g s'))
    (hJ : ∀ a b s s', J a b s s' → J₂ a b (f s) (g s')) :
    Agreeing π' keep' t J₂ (within f rx) (within g ry) := by
  cases h.cases with
  | ok hr => exact hJ _ _ _ _ hr
  | bounds hl => exact .of_bounds (hleft _ hl)
  | endless hl hr | exhausted hl hr => exact ⟨hleft _ hl, hright _ hr⟩
  | thrown ht hj => exact ⟨ht, hfailed _ _ _ hj⟩
  | code ht hj =>
    rw [← zero_add keep] at hj
    have hj := hfailed 0 _ _ hj
    rw [zero_add] at hj
    exact ⟨ht, rfl, hj⟩

theorem Agree.imp {rx : EStateM.Result Fault σ α} {ry : EStateM.Result Fault σ' β}
    (h : Agree π keep t R rx ry) (ht : t → t') (hR : ∀ a b P, R a b P → R' a b P) :
    Agree π keep t' R' rx ry :=
  Agreeing.imp h ht fun a b _ _ ⟨P, hP, hj⟩ => ⟨P, hR a b P hP, hj⟩

theorem Agree.of_bounds {s : σ} {ry : EStateM.Result Fault σ' β} (h : π.left (lefts keep) s) :
    Agree π keep t R (.error .bounds s) ry := Agreeing.of_bounds h

theorem Agree.bind {s : σ} {s' : σ'} (h : Agree π keep t R (x s) (y s'))
    (hf : ∀ a b P s s', R a b P → π.joined (P + keep) s s' → Agree π keep t S (f a s) (g b s')) :
    Agree π keep t S ((x >>= f) s) ((y >>= g) s') :=
  Agreeing.bind h fun a b s s' ⟨P, hP, hj⟩ => hf a b P s s' hP hj

theorem ensuring_of_ok {after : EStateM Fault σ Unit} {s s₁ : σ} {a : α} (hx : x s = .ok a s₁) :
    ensuring x after s = (after >>= fun _ => pure a) s₁ := by
  simp only [ensuring, hx]
  cases ha : after s₁ with
  | ok u s₂ => rw [bind_of_ok ha]; rfl
  | error e s₂ => rw [bind_of_error ha]

theorem ensuring_of_error {after : EStateM Fault σ Unit} {s s₁ : σ} {e : Fault}
    (hx : x s = .error e s₁) : ensuring x after s = (after >>= fun _ => throw e) s₁ := by
  simp only [ensuring, hx]
  cases ha : after s₁ with
  | ok u s₂ => rw [bind_of_ok ha]; rfl
  | error e s₂ => rw [bind_of_error ha]

/-- What is kept beside is given back, if nothing is thrown. -/
theorem Agree.frame {rest : Multiset Link} {rx : EStateM.Result Fault σ α}
    {ry : EStateM.Result Fault σ' β} (h : Agree π (rest + keep) False R rx ry) :
    Agree π keep t (fun a b P => ∃ P₀, R a b P₀ ∧ P = P₀ + rest) rx ry := by
  have hleft (s : σ) (hs : π.left (lefts (rest + keep)) s) : π.left (lefts keep) s := by
    rw [lefts_add, add_comm] at hs
    exact π.left_mono _ _ s hs
  have hright (s : σ') (hs : π.right (rights (rest + keep)) s) : π.right (rights keep) s := by
    rw [rights_add, add_comm] at hs
    exact π.right_mono _ _ s hs
  cases h.cases with
  | ok hr =>
    obtain ⟨P, hP, hj⟩ := hr
    rw [← add_assoc] at hj
    exact ⟨P + rest, ⟨P, hP, rfl⟩, hj⟩
  | bounds hl => exact .of_bounds (hleft _ hl)
  | endless hl hr | exhausted hl hr => exact ⟨hleft _ hl, hright _ hr⟩
  | thrown ht _ | code ht _ => exact ht.elim

/-- Actions that give up links, also in a run that is not followed any more. -/
structure Cleans (π : Bridge σ σ') (P : Multiset Link) (after : EStateM Fault σ Unit)
    (after' : EStateM Fault σ' Unit) : Prop where
  both : Twin π [] P False after after' Done
  left : ∀ own s, π.left (lefts P + own) s → ∃ s₁, after s = .ok () s₁ ∧ π.left own s₁
  right : ∀ own s, π.right (rights P + own) s → ∃ s₁, after' s = .ok () s₁ ∧ π.right own s₁

namespace Twin

theorem mono {borrow' : List Link} (h : Twin π borrow pre t x y R)
    (hb : ∀ l ∈ borrow, l ∈ borrow') (ht : t → t') (hR : ∀ a b P, R a b P → R' a b P) :
    Twin π borrow' pre t' x y R' := fun keep s s' hkeep hj =>
  (h keep s s' (fun l hl => hkeep l (hb l hl)) hj).imp ht hR

theorem imp (h : Twin π borrow pre t x y R) (hR : ∀ a b P, R a b P → R' a b P) :
    Twin π borrow pre t x y R' := h.mono (fun _ hl => hl) id hR

protected theorem pure {a : α} {b : β} (h : R a b pre) : Twin π borrow pre t (pure a) (pure b) R :=
  fun _ _ _ _ hj => ⟨pre, h, hj⟩

theorem bounds : Twin π borrow pre t (throw .bounds : EStateM Fault σ α) y R := by
  intro keep s s' _ hj
  have hl := π.joined_left _ s s' hj
  rw [lefts_add, add_comm] at hl
  have := π.left_mono _ _ s hl
  cases y s' <;> exact this

theorem thrown (hπ : π.Plain) : Twin π borrow {Link.pair v w} True
    (throw (.thrown v) : EStateM Fault σ α) (throw (.thrown w) : EStateM Fault σ' β) R :=
  fun _ _ _ _ hj => ⟨trivial, by rwa [hπ]⟩

/-- One pair of actions after another. -/
theorem bind (h : Twin π borrow pre t x y R)
    (hf : ∀ a b P, R a b P → Twin π borrow P t (f a) (g b) S) :
    Twin π borrow pre t (x >>= f) (y >>= g) S := by
  intro keep s s' hkeep hj
  refine (h keep s s' hkeep hj).bind fun a b P s s' hP hj => ?_
  exact hf a b P hP keep s s' hkeep hj

theorem frame (h : Twin π borrow pre False x y R) (rest : Multiset Link) :
    Twin π borrow (pre + rest) t x y fun a b P => ∃ P₀, R a b P₀ ∧ P = P₀ + rest := by
  intro keep s s' hkeep hj
  rw [add_assoc] at hj
  exact (h (rest + keep) s s' (fun l hl => Multiset.mem_add.2 (.inr (hkeep l hl))) hj).frame

/-- Links in hand can be borrowed meanwhile. -/
theorem lend (ls : List Link) (h : Twin π (ls ++ borrow) pre False x y R) :
    Twin π borrow (pre + ↑ls) t x y fun a b P => ∃ P₀, R a b P₀ ∧ P = P₀ + ↑ls := by
  intro keep s s' hkeep hj
  rw [add_assoc] at hj
  refine (h (↑ls + keep) s s' (fun l hl => ?_) hj).frame
  rcases List.mem_append.1 hl with hl | hl
  · exact Multiset.mem_add.2 (.inl (Multiset.mem_coe.2 hl))
  · exact Multiset.mem_add.2 (.inr (hkeep l hl))

/-- Links that the first actions do not need are handed on. -/
theorem bind_rest {rest : Multiset Link} (h : Twin π borrow pre False x y R)
    (hf : ∀ a b P, R a b P → Twin π borrow (P + rest) t (f a) (g b) S) :
    Twin π borrow (pre + rest) t (x >>= f) (y >>= g) S := by
  refine (h.frame rest).bind fun a b P hP => ?_
  obtain ⟨P₀, hP, rfl⟩ := hP
  exact hf a b P₀ hP

/-- The first actions only borrow what is in hand. -/
theorem bind_lend (ls : List Link) {rest : Multiset Link} (h : Twin π (ls ++ borrow) 0 False x y R)
    (hf : ∀ a b P, R a b P → Twin π borrow (P + (↑ls + rest)) t (f a) (g b) S) :
    Twin π borrow (↑ls + rest) t (x >>= f) (y >>= g) S := by
  have hlent : Twin π borrow ↑ls False x y fun a b P => ∃ P₀, R a b P₀ ∧ P = P₀ + ↑ls := by
    simpa only [zero_add] using h.lend ls (t := False)
  refine hlent.bind_rest fun a b P hP => ?_
  obtain ⟨P₀, hP, rfl⟩ := hP
  rw [add_assoc]
  exact hf a b P₀ hP

theorem map {f : α → γ} {g : β → δ} (h : Twin π borrow pre t x y R)
    (hf : ∀ a b P, R a b P → S (f a) (g b) P) : Twin π borrow pre t (f <$> x) (g <$> y) S := by
  rw [map_eq_pure_bind, map_eq_pure_bind]
  exact h.bind fun a b P hP => Twin.pure (hf a b P hP)

/-- Actions that look at the states. -/
theorem get {f : σ → EStateM Fault σ γ} {g : σ' → EStateM Fault σ' δ}
    (hf : ∀ keep s s', (∀ l ∈ borrow, l ∈ keep) → π.joined (pre + keep) s s' →
      Twin π borrow pre t (f s) (g s') S) :
    Twin π borrow pre t (MonadState.get >>= f) (MonadState.get >>= g) S :=
  fun keep s s' hkeep hj => hf keep s s' hkeep hj keep s s' hkeep hj

/-- Links that are given up afterwards, however the actions end. -/
theorem ensuring (ls : List Link) {after : EStateM Fault σ Unit} {after' : EStateM Fault σ' Unit}
    (hπ : π.Plain) (h : Twin π (ls ++ borrow) pre t x y R) (hc : Cleans π ↑ls after after') :
    Twin π borrow (↑ls + pre) t (MethodJit.ensuring x after) (MethodJit.ensuring y after') R := by
  intro keep s s' hkeep hj
  have hbody := h (↑ls + keep) s s' (fun l hl => by
      rcases List.mem_append.1 hl with hl | hl
      · exact Multiset.mem_add.2 (.inl (Multiset.mem_coe.2 hl))
      · exact Multiset.mem_add.2 (.inr (hkeep l hl)))
    (by rwa [← add_assoc, add_comm pre])
  -- After a success, or a failure that is reported, both runs give up the links in lockstep.
  have hboth (P : Multiset Link) (s₁ : σ) (s₁' : σ') (hj : π.joined (P + (↑ls + keep)) s₁ s₁') :
      Agree π keep t (fun _ _ Q => Q = P) (after s₁) (after' s₁') := by
    have hafter := hc.both (P + keep) s₁ s₁' (fun _ hl => (List.not_mem_nil hl).elim) (by
      rwa [← add_assoc, add_comm (↑ls : Multiset Link), add_assoc])
    refine hafter.frame.imp id fun _ _ Q hQ => ?_
    obtain ⟨P₀, rfl, rfl⟩ := hQ
    exact zero_add P
  have hleft (s₁ : σ) (hs : π.left (lefts (↑ls + keep)) s₁) :
      ∃ s₂, after s₁ = .ok () s₂ ∧ π.left (lefts keep) s₂ :=
    hc.left _ s₁ (by rwa [← lefts_add])
  have hright (s₁ : σ') (hs : π.right (rights (↑ls + keep)) s₁) :
      ∃ s₂, after' s₁ = .ok () s₂ ∧ π.right (rights keep) s₂ :=
    hc.right _ s₁ (by rwa [← rights_add])
  generalize hx : x s = rx at hbody
  generalize hy : y s' = ry at hbody
  cases hbody.cases with
  | ok hr =>
    obtain ⟨P, hP, hj⟩ := hr
    rw [ensuring_of_ok hx, ensuring_of_ok hy]
    refine (hboth P _ _ hj).bind fun _ _ Q s s' hQ hj => ?_
    rw [hQ] at hj
    exact ⟨P, hP, hj⟩
  | bounds hl =>
    obtain ⟨s₂, hs₂, hl⟩ := hleft _ hl
    rw [ensuring_of_error hx, bind_of_ok hs₂]
    exact .of_bounds hl
  | endless hl hr | exhausted hl hr =>
    obtain ⟨s₂, hs₂, hl⟩ := hleft _ hl
    obtain ⟨s₂', hs₂', hr⟩ := hright _ hr
    rw [ensuring_of_error hx, ensuring_of_error hy, bind_of_ok hs₂, bind_of_ok hs₂']
    exact ⟨hl, hr⟩
  | thrown ht hj =>
    rw [hπ] at hj
    rw [ensuring_of_error hx, ensuring_of_error hy]
    refine (hboth _ _ _ hj).bind fun _ _ Q s s' hQ hj => ?_
    rw [hQ, ← hπ] at hj
    exact ⟨ht, hj⟩
  | code ht hj =>
    rw [hπ, ← zero_add (↑ls + keep)] at hj
    rw [ensuring_of_error hx, ensuring_of_error hy]
    refine (hboth 0 _ _ hj).bind fun _ _ Q s s' hQ hj => ?_
    rw [hQ, zero_add, ← hπ] at hj
    exact ⟨ht, rfl, hj⟩

end Twin

end MethodJit
