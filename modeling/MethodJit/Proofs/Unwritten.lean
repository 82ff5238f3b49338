import MethodJit.Proofs.Lanes
import MethodJit.Proofs.Tallies

/-!
# Heaps to which nothing was written

Moving values makes new numbers and texts and gives objects up, but writes to no object: a cell that was
there holds what it held, or has been emptied. If two runs of this kind end with linked heaps, all cells
that were there at the start are the same in both, with their counts, and the values that the runs have in
the same places are the same, or new objects with the same contents.
-/

namespace MethodJit

variable {σ α β : Type}

/-- Nothing was written to a cell of the first heap, and the new cells hold numbers and texts. -/
structure Unwritten (h h' : Heap) : Prop where
  old : ∀ (a : Address) c, h.cells[a]? = some c →
    ∃ c', h'.cells[a]? = some c' ∧ (c'.body = c.body ∨ c'.body = c.body.emptied)
  new : ∀ (a : Address) c', h.cells[a]? = none → h'.cells[a]? = some c' → c'.body.isPrimitive = true

variable {h h' h'' : Heap} {a b : Address} {c : Cell} {body : Body}

namespace Unwritten

theorem refl (h : Heap) : Unwritten h h where
  old _ c hc := ⟨c, hc, .inl rfl⟩
  new _ _ hn hc := by
    rw [hn] at hc
    cases hc

theorem emptied_emptied (b : Body) : b.emptied.emptied = b.emptied := by
  cases b <;> rfl

theorem trans (h₁ : Unwritten h h') (h₂ : Unwritten h' h'') : Unwritten h h'' where
  old a c hc := by
    obtain ⟨c', hc', hbody⟩ := h₁.old a c hc
    obtain ⟨c'', hc'', hbody'⟩ := h₂.old a c' hc'
    refine ⟨c'', hc'', ?_⟩
    rcases hbody with hbody | hbody <;> rw [hbody] at hbody'
    · exact hbody'
    · rw [emptied_emptied, or_self] at hbody'
      exact .inr hbody'
  new a c'' hn hc'' := by
    cases hc' : h'.cells[a]? with
    | none => exact h₂.new a c'' hc' hc''
    | some c' =>
      have hp := h₁.new a c' hn hc'
      obtain ⟨d, hd, hbody⟩ := h₂.old a c' hc'
      rw [hc'', Option.some.injEq] at hd
      subst hd
      rw [Body.emptied_of_isPrimitive hp, or_self] at hbody
      rwa [hbody]

/-- Another count of a cell, which may have been emptied. -/
theorem setCell (hc : h.cells[a]? = some c) {d : Cell}
    (hd : d.body = c.body ∨ d.body = c.body.emptied) : Unwritten h (h.setCell a d) where
  old b e he := by
    rw [cells_setCell hc]
    by_cases hb : b = a
    · subst hb
      rw [hc, Option.some.injEq] at he
      subst he
      exact ⟨d, if_pos rfl, hd⟩
    · exact ⟨e, by rw [if_neg hb, he], .inl rfl⟩
  new b e hn he := by
    rw [cells_setCell hc] at he
    split at he
    · subst b
      rw [hc] at hn
      cases hn
    · rw [hn] at he
      cases he

theorem extended (hb : body.isPrimitive = true) : Unwritten h (h.extended body) where
  old a c hc := by
    refine ⟨c, ?_, .inl rfl⟩
    have hlt := (Array.getElem?_eq_some_iff.1 hc).1
    rw [cells_extended, if_neg (Nat.ne_of_lt hlt), hc]
  new a c' hn hc' := by
    rw [cells_extended] at hc'
    split at hc'
    · cases hc'
      exact hb
    · rw [hn] at hc'
      cases hc'

end Unwritten

/-! ## Actions that write nothing -/

/-- The action writes to no cell. -/
def WritesNothing (heap : σ → Heap) (x : EStateM Fault σ α) : Prop :=
  ∀ s, Yields x s fun _ s' => Unwritten (heap s) (heap s')

namespace WritesNothing

variable {heap : σ → Heap} {x : EStateM Fault σ α} {f : α → EStateM Fault σ β}

protected theorem pure (a : α) : WritesNothing heap (pure a : EStateM Fault σ α) :=
  fun s => .refl (heap s)

protected theorem throw (e : Fault) : WritesNothing heap (throw e : EStateM Fault σ α) :=
  fun _ => trivial

protected theorem bind (hx : WritesNothing heap x) (hf : ∀ a, WritesNothing heap (f a)) :
    WritesNothing heap (x >>= f) := fun s =>
  (hx s).bind fun a s₁ h₁ => (hf a s₁).imp fun _ _ h₂ => h₁.trans h₂

protected theorem get : WritesNothing heap (get : EStateM Fault σ σ) := fun s => .refl (heap s)

protected theorem modify {g : σ → σ} (hg : ∀ s, heap (g s) = heap s) :
    WritesNothing heap (modify g : EStateM Fault σ Unit) := fun s => by
  have : Unwritten (heap s) (heap (g s)) := by
    rw [hg]
    exact .refl _
  exact this

theorem releaseAll (pending : List Value) : WritesNothing id (Heap.releaseAll pending : HeapM Unit) := by
  intro h
  unfold Yields Ends
  fun_induction Heap.releaseAll pending h with
  | case1 h => exact .refl h
  | case2 | case6 | case7 => trivial
  | case3 h rest ih | case4 h rest ih | case5 h rest b ih => exact ih
  | case8 h a rest body hc ih =>
    split at ih
    · exact (Unwritten.setCell hc (.inr rfl)).trans ih
    · trivial
  | case9 h a rest n body hc ih =>
    split at ih
    · exact (Unwritten.setCell (d := ⟨n + 1, body⟩) hc (.inl rfl)).trans ih
    · trivial

theorem releaseBound (v : Value) : WritesNothing id (releaseBound v) := by
  unfold MethodJit.releaseBound
  split
  · exact releaseAll [v]
  · exact .pure ()

theorem retain (v : Value) : WritesNothing id (retain v) := by
  intro h
  unfold Yields Ends MethodJit.retain
  cases v with
  | ref a =>
    cases hc : h.cells[a]? with
    | none => simp only [hc]
    | some c =>
      simp only [hc]
      exact .setCell hc (.inl rfl)
  | unbound => trivial
  | _ => exact .refl h

theorem alloc (hb : body.isPrimitive = true) : WritesNothing id (alloc body) := fun _ => .extended hb

theorem shared (v : Value) : WritesNothing id (shared v) := .bind (retain v) fun _ => .pure v

theorem retain_item (x : Item) : WritesNothing id x.retain := by
  cases x with
  | object v => exact retain v
  | int n => exact .pure ()

theorem release_item (x : Item) : WritesNothing id x.release := by
  cases x with
  | object v => exact releaseAll [v]
  | int n => exact .pure ()

end WritesNothing

namespace Lane

/-! ## Actions on lanes -/

end Lane

/-! ## Comparing the heaps of two runs -/

variable {base : Nat} {G : Graph} {ψ ψ' : Naming} {P : Multiset Link} {owned : Multiset Value}
  {v v' w w' : Value}

namespace Bond

end Bond

end MethodJit
