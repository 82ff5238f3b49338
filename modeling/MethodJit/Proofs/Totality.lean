import MethodJit.Proofs.Scan

/-!
# Generating code never fails for a reason of its own

For every method whose locals can be made, whatever its code and its constants are, generating code gives
a function without problems or reports a defect of the method.
-/

namespace MethodJit.Compiler

open IR

variable {e e' : Emitter} {m : Method}

/-- The emitter in its first block. -/
def Emitter.entered (e : Emitter) : Emitter :=
  { e with builder := ⟨{ e.function with blocks := #[{ name := "entry" }] }, 0⟩ }

theorem make?_eq_some (h : Emitter.make? m = some e) :
    e = { builder := { function := { name := m.name } }, method := m,
          locals := .replicate m.locals.toNatClampNeg {} } := by
  unfold Emitter.make? at h
  split at h
  · cases h
  · exact (Option.some.inj h).symm

theorem ready_entered (h : Emitter.make? m = some e) : e.entered.Ready ∧ Laid 0 e.entered := by
  rw [make?_eq_some h]
  have hget {b : Block} {i : Nat} (hb : (#[{ name := "entry" }] : Array Block)[i]? = some b) :
      i = 0 ∧ b = { name := "entry" } := by
    cases i with
    | zero => exact ⟨rfl, (Option.some.inj hb).symm⟩
    | succ i => simp at hb
  refine ⟨⟨⟨⟨⟨#[], rfl⟩, fun b hb => ?_⟩, ⟨_, rfl⟩, fun x hx => ?_, fun s hs => ?_, ?_,
    fun offset id hid => ?_⟩, ⟨_, rfl, rfl⟩⟩, fun i b hb hi h0 => ?_, fun offset id hp hid => ?_,
    fun offset offset' id hid => ?_, fun offset id hid => ?_⟩
  · obtain ⟨i, hb⟩ := Array.mem_iff_getElem?.1 hb
    rw [(hget hb).2]
    exact Block.sound_empty ..
  · cases hx
  · exact .inl (Array.mem_replicate.1 hs).2
  · exact Array.size_replicate
  · cases hid
  · exact absurd (hget hb).1 hi
  · cases hid
  · cases hid
  · cases hid

/-- Every block has ended once the last one has. -/
theorem Arrived.terminated (h : Arrived e.method.bytes.size e) (hclosed : ¬ e.Open) :
    ∀ b ∈ e.function.blocks, b.terms ≠ 0 := by
  intro b hb h0
  obtain ⟨i, hb⟩ := Array.mem_iff_getElem?.1 hb
  by_cases hi : i = e.builder.point.toNat
  · obtain ⟨b', hb'⟩ := h.sound.point
    obtain ⟨hp, -⟩ := Function.block?_eq_some.1 hb'
    subst hi
    exact hclosed ⟨b, Function.block?_eq_some.2 ⟨hp, hb⟩, h0⟩
  · obtain ⟨offset, hp, hid⟩ := h.laid.waiting i b hb hi h0
    have := (h.laid.range offset _ hid).2
    omega

theorem checkTerminated_spec {bs : List Block} (h : ∀ b ∈ bs, b.term ≠ .none) {E : Fault → Emitter → Prop} :
    Ends (Emit.checkTerminated m bs) e E fun _ e' => e' = e := by
  induction bs with
  | nil => rfl
  | cons b bs ih =>
    obtain ⟨hb, hbs⟩ := List.forall_mem_cons.1 h
    unfold Emit.checkTerminated
    simp only [hb, if_false]
    exact ih hbs

/-- What is known of an emitter that has generated the code of its method. -/
structure Finished (e : Emitter) : Prop where
  arrived : Arrived e.method.bytes.size e
  terminated : ∀ b ∈ e.function.blocks, b.terms ≠ 0

theorem Finished.isEmpty (h : Finished e) : e.function.blocks.isEmpty = false := by
  obtain ⟨b, hb⟩ := h.arrived.sound.point
  have := (Function.target_of_block? hb).2
  rw [Array.isEmpty_eq_false_iff]
  rintro hempty
  rw [hempty] at this
  exact absurd this (Nat.not_lt_zero _)

theorem Finished.problems (h : Finished e) : e.function.problems = [] :=
  Function.problems_eq_nil h.arrived.sound.function h.isEmpty h.terminated

theorem startBlock_eq (h : Emitter.make? m = some e) :
    Emit.startBlock "entry" e = .ok () e.entered := by
  rw [make?_eq_some h]
  rfl

/-- The pass starts in the entry block. -/
theorem Issues.scanning (h : Issues e e') (hr : e.Ready) (hl : Laid 0 e) : Scanning 0 e' where
  sound := (h.ready hr).toSound
  laid := h.emits.laid hl
  pos_le := Nat.zero_le _
  synced hclosed := absurd (h.ready hr).isOpen hclosed

/-- What follows the pass over the code. -/
theorem finish_spec (h : Arrived e.method.bytes.size e) :
    Ends (do
      if !(← Emit.build .terminated) then throw (.code .noEnd)
      Emit.checkTerminated m (← get).function.blocks.toList) e Refuses fun _ e' =>
        e' = e ∧ Finished e := by
  obtain ⟨t, ht, hopen⟩ := build_terminated h.sound
  refine Ends.bind (Q := fun t' e' => t' = t ∧ e' = e) (ends_of_ok ht ⟨rfl, rfl⟩)
    fun _ _ ⟨ht', he⟩ => ?_
  rw [ht', he]
  cases t with
  | false => exact ⟨_, rfl⟩
  | true =>
    have hterms := h.terminated (hopen.1 rfl)
    have hne : ∀ b ∈ e.function.blocks.toList, b.term ≠ .none := by
      intro b hb hnone
      have hb := Array.mem_toList_iff.1 hb
      rcases (h.sound.function.blocks b hb).term with ⟨h0, -⟩ | ⟨-, hterm⟩
      · exact hterms b hb h0
      · rw [hnone] at hterm
        exact hterm
    exact (checkTerminated_spec hne).imp fun _ _ he => ⟨he, h, hterms⟩

theorem method_spec (h : Emitter.make? m = some e) :
    Ends Emit.method e Refuses fun _ e' =>
      (e'.method = m ∧ Extends 0 e.entered e') ∧ Finished e' := by
  have hm : e.method = m := by rw [make?_eq_some h]
  obtain ⟨hr, hl⟩ := ready_entered h
  unfold Emit.method
  rw [ends_bind, ends_get, hm]
  refine Ends.bind (Q := fun _ e' => e' = e.entered) (ends_of_ok (startBlock_eq h) rfl) ?_
  rintro _ _ rfl
  refine (callHelper_spec hr _ (.frame .bindArguments) (.cons hr.params.2.2 .nil)).bind
    fun _ e₁ ⟨h₁, _⟩ => ?_
  have hm₁ : e₁.method = m := h₁.emits.method.trans hm
  refine (codeFrom_spec (h₁.scanning hr hl) (by rw [hm₁]; omega)).bind fun _ e₂ ⟨hext, h₂⟩ => ?_
  have hm₂ := hext.method.trans hm₁
  rw [hm₁, ← hm₂] at h₂
  have hext' := (h₁.emits.extends hr.isOpen).trans hext
  exact (finish_spec h₂).imp fun _ _ ⟨he, hf⟩ => he ▸ ⟨⟨hm₂, hext'⟩, hf⟩

/-- Where no fault is reported, an emitter was made and the code of the method was generated. -/
theorem exists_of_generate (h : (generate m).fault = none) :
    ∃ e e', Emitter.make? m = some e ∧ Emit.method e = .ok () e' ∧
      (generate m).function = e'.function := by
  unfold generate at h ⊢
  cases hmake : Emitter.make? m with
  | none =>
    rw [hmake] at h
    cases h
  | some e =>
    rw [hmake] at h
    simp only at h ⊢
    cases hrun : Emit.method e with
    | ok _ e' => exact ⟨e, e', rfl, hrun, rfl⟩
    | error f e' =>
      rw [hrun] at h
      cases f <;> cases h

theorem finished_of_generate (h : (generate m).fault = none) :
    ∃ e', Finished e' ∧ (generate m).function = e'.function := by
  obtain ⟨e, e', hmake, hrun, hfun⟩ := exists_of_generate h
  exact ⟨e', ((method_spec hmake).ok hrun).2, hfun⟩

end MethodJit.Compiler
