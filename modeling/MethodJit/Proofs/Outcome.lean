import MethodJit.Fault

/-!
# Outcomes of actions

`Ends x s E Q` says how an action ends that is started in a state: with a result that satisfies `Q`, or
with a failure that satisfies `E`. The lemmas follow the way actions are put together.
-/

namespace MethodJit

variable {ε σ α β : Type} {x : EStateM ε σ α} {s : σ}
  {E E' : ε → σ → Prop} {Q Q' : α → σ → Prop} {R : β → σ → Prop}

def Ends (x : EStateM ε σ α) (s : σ) (E : ε → σ → Prop) (Q : α → σ → Prop) : Prop :=
  match x s with
  | .ok a s => Q a s
  | .error e s => E e s

theorem ends_of_ok {a : α} {s' : σ} (hx : x s = .ok a s') (hq : Q a s') : Ends x s E Q := by
  simpa only [Ends, hx] using hq

theorem ends_of_error {e : ε} {s' : σ} (hx : x s = .error e s') (he : E e s') : Ends x s E Q := by
  simpa only [Ends, hx] using he

theorem Ends.ok {a : α} {s' : σ} (h : Ends x s E Q) (hx : x s = .ok a s') : Q a s' := by
  simpa only [Ends, hx] using h

theorem Ends.error {e : ε} {s' : σ} (h : Ends x s E Q) (hx : x s = .error e s') : E e s' := by
  simpa only [Ends, hx] using h

@[simp] theorem ends_pure (a : α) : Ends (pure a : EStateM ε σ α) s E Q ↔ Q a s := Iff.rfl

@[simp] theorem ends_throw (e : ε) : Ends (throw e : EStateM ε σ α) s E Q ↔ E e s := Iff.rfl

@[simp] theorem ends_get {Q : σ → σ → Prop} : Ends (get : EStateM ε σ σ) s E Q ↔ Q s s := Iff.rfl

@[simp] theorem ends_modify {f : σ → σ} {Q : PUnit → σ → Prop} :
    Ends (modify f : EStateM ε σ PUnit) s E Q ↔ Q ⟨⟩ (f s) := Iff.rfl

theorem ends_bind {f : α → EStateM ε σ β} :
    Ends (x >>= f) s E R ↔ Ends x s E fun a s => Ends (f a) s E R := by
  simp only [Ends, bind, EStateM.bind]
  cases x s <;> rfl

theorem ends_map {f : α → β} : Ends (f <$> x) s E R ↔ Ends x s E fun a s => R (f a) s := by
  simp only [Ends, Functor.map, EStateM.map]
  cases x s <;> rfl

theorem ends_attempt {Q : Except ε α → σ → Prop} :
    Ends (attempt x) s E Q ↔ Ends x s (fun e s => Q (.error e) s) fun a s => Q (.ok a) s := by
  unfold Ends attempt
  cases x s <;> rfl

theorem Ends.mono (h : Ends x s E Q) (hE : ∀ e s, E e s → E' e s) (hQ : ∀ a s, Q a s → Q' a s) :
    Ends x s E' Q' := by
  unfold Ends at h ⊢
  split at h
  · exact hQ _ _ h
  · exact hE _ _ h

theorem Ends.imp (h : Ends x s E Q) (hQ : ∀ a s, Q a s → Q' a s) : Ends x s E Q' :=
  h.mono (fun _ _ he => he) hQ

/-- Two actions one after the other. -/
theorem Ends.bind {f : α → EStateM ε σ β} (h : Ends x s E Q)
    (hf : ∀ a s, Q a s → Ends (f a) s E R) : Ends (x >>= f) s E R :=
  ends_bind.2 (h.imp hf)

/-- An action that succeeded on the whole succeeded in its first part. -/
theorem bind_eq_ok {f : α → EStateM ε σ β} {b : β} {s' : σ} (h : (x >>= f) s = .ok b s') :
    ∃ a s₁, x s = .ok a s₁ ∧ f a s₁ = .ok b s' := by
  simp only [Bind.bind, EStateM.bind] at h
  split at h
  · exact ⟨_, _, by assumption, h⟩
  · cases h

theorem bind_of_ok {f : α → EStateM ε σ β} {a : α} {s₁ : σ} (hx : x s = .ok a s₁) :
    (x >>= f) s = f a s₁ := by
  simp only [Bind.bind, EStateM.bind, hx]

theorem bind_of_error {f : α → EStateM ε σ β} {e : ε} {s₁ : σ} (hx : x s = .error e s₁) :
    (x >>= f) s = .error e s₁ := by
  simp only [Bind.bind, EStateM.bind, hx]

theorem attempt_of_ok {a : α} {s₁ : σ} (hx : x s = .ok a s₁) : attempt x s = .ok (.ok a) s₁ := by
  rw [attempt, hx]

theorem attempt_of_error {e : ε} {s₁ : σ} (hx : x s = .error e s₁) : attempt x s = .ok (.error e) s₁ := by
  rw [attempt, hx]

theorem get_bind (f : σ → EStateM ε σ β) (s : σ) : (get >>= f) s = f s s := rfl

theorem modify_bind (g : σ → σ) (f : PUnit → EStateM ε σ β) (s : σ) :
    (modify g >>= f) s = f ⟨⟩ (g s) := rfl

/-- Every result of the action satisfies `Q`, should it succeed. -/
abbrev Yields (x : EStateM ε σ α) (s : σ) (Q : α → σ → Prop) : Prop := Ends x s (fun _ _ => True) Q

theorem yields_true (x : EStateM ε σ α) (s : σ) : Yields x s fun _ _ => True := by
  unfold Yields Ends
  cases x s <;> trivial

/-- What holds of the last part of an action, whatever came before. -/
theorem yields_then {f : α → EStateM ε σ β} (h : ∀ a s, Yields (f a) s R) : Yields (x >>= f) s R :=
  (yields_true x s).bind fun a s _ => h a s

theorem yields_ifThen {c : Bool} {x : EStateM ε σ PUnit} {y : EStateM ε σ β} (h : ∀ s, Yields y s R) :
    Yields (do
      if c then x
      y) s R := by
  cases c with
  | true => exact yields_then fun _ s => h s
  | false => exact h s

end MethodJit
