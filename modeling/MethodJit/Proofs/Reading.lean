import Mathlib.Algebra.Group.Nat.Defs
import MethodJit.Code.Layout
import MethodJit.Proofs.Outcome

/-!
# Readers stay in the code

A reader that succeeds moves forward, by no more than there is, and leaves the code as it is. All readers
of immediates and of whole instructions are of that kind.
-/

namespace MethodJit.Cursor

variable {α β : Type}

/-- The reader goes forward in the code and not beyond its end. -/
def Advances (r : Read α) : Prop :=
  ∀ (c : Cursor) (a : α) (c' : Cursor), r c = .ok a c' →
    c'.code = c.code ∧ c.pos ≤ c'.pos ∧ (c.pos ≤ c.code.size → c'.pos ≤ c.code.size)

theorem advances_pure (a : α) : Advances (pure a) := by
  rintro c _ _ ⟨⟩
  exact ⟨rfl, Nat.le_refl _, id⟩

theorem advances_throw (e : CodeFault) : Advances (throw e : Read α) := by
  intro c a c' h
  cases h

theorem Advances.bind {r : Read α} {f : α → Read β} (hr : Advances r) (hf : ∀ a, Advances (f a)) :
    Advances (r >>= f) := by
  intro c b c' h
  obtain ⟨a, c₁, h₁, h₂⟩ := bind_eq_ok h
  obtain ⟨code₁, pos₁, end₁⟩ := hr c a c₁ h₁
  obtain ⟨code₂, pos₂, end₂⟩ := hf a c₁ b c' h₂
  rw [code₁] at code₂ end₂
  exact ⟨code₂, Nat.le_trans pos₁ pos₂, fun h => end₂ (end₁ h)⟩

/-- What a decoder takes without a fault lies in the code. -/
theorem advances_take {decode : Array UInt8 → Nat → Decoded α}
    (h : ∀ code pos, (decode code pos).fault = none → pos + (decode code pos).length ≤ code.size) :
    Advances (take decode) := by
  intro c a c' hc
  simp only [take] at hc
  split at hc
  case h_1 hf =>
    obtain ⟨rfl, rfl⟩ := EStateM.Result.ok.inj hc
    exact ⟨rfl, Nat.le_add_right _ _, fun _ => h c.code c.pos hf⟩
  case h_2 => cases hc

theorem advances_byte : Advances byte := by
  apply advances_take
  intro code pos h
  unfold Immediate.u8At at h ⊢
  split at h
  · rename_i hb
    exact (Array.getElem?_eq_some_iff.1 hb).1
  · cases h

theorem advances_s24 : Advances s24 := by
  apply advances_take
  intro code pos h
  unfold Immediate.s24At at h ⊢
  split at h
  · rename_i hc
    exact (Array.getElem?_eq_some_iff.1 hc).1
  all_goals cases h

theorem groupsAt_length (code : Array UInt8) (pos groups n acc : Nat)
    (h : (Immediate.groupsAt code pos groups n acc).fault = none) :
    pos + (Immediate.groupsAt code pos groups n acc).length ≤ code.size := by
  induction groups generalizing n acc with
  | zero => cases h
  | succ groups ih =>
    unfold Immediate.groupsAt at h ⊢
    split at h
    · cases h
    · rename_i b hb
      by_cases hlast : b < 128
      · simp only [hlast, if_true]
        exact (Array.getElem?_eq_some_iff.1 hb).1
      · simp only [hlast, if_false] at h ⊢
        exact ih _ _ h

theorem advances_u30 : Advances u30 := by
  apply advances_take
  intro code pos h
  have hg := groupsAt_length code pos 5 0 0
  unfold Immediate.u30At Immediate.u32At at h ⊢
  simp only at h ⊢
  split at h
  · cases h
  · rename_i hf
    by_cases hsmall : (Immediate.groupsAt code pos 5 0 0).value < 0x40000000
    · simp only [hsmall, if_true]
      exact hg hf
    · simp only [hsmall, if_false] at h
      cases h

/-- Only numbers below `2 ^ 30` are read. -/
theorem lt_of_u30 {c c' : Cursor} {n : Nat} (h : u30 c = .ok n c') : n < 2 ^ 30 := by
  have hfault : ∀ d : Decoded Nat, d = Immediate.u30At c.code c.pos → d.fault = none → d.value < 2 ^ 30 := by
    rintro _ rfl hf
    unfold Immediate.u30At at hf ⊢
    simp only at hf ⊢
    split at hf
    · cases hf
    · by_cases hsmall : (Immediate.u32At c.code c.pos).value < 0x40000000
      · rw [if_pos hsmall]
        exact hsmall
      · simp only [hsmall, if_false] at hf
        cases hf
  unfold u30 take at h
  simp only at h
  split at h
  · rename_i hf
    obtain ⟨rfl, -⟩ := EStateM.Result.ok.inj h
    exact hfault _ rfl hf
  · cases h

theorem advances_index (table : Table) (size : Int) : Advances (index table size) :=
  advances_u30.bind fun _ => by
    split
    · exact advances_pure _
    · exact advances_throw _

theorem advances_count (what : String) (limit : Nat) : Advances (count what limit) :=
  advances_u30.bind fun _ => by
    split
    · exact advances_pure _
    · exact advances_throw _

theorem advances_readDistances (n : Nat) : Advances (readDistances n) := by
  induction n with
  | zero => exact advances_pure _
  | succ n ih => exact advances_s24.bind fun _ => ih.bind fun _ => advances_pure _

theorem advances_readSwitch : Advances readSwitch :=
  advances_s24.bind fun _ => (advances_count _ _).bind fun _ =>
    (advances_readDistances _).bind fun _ => advances_pure _

theorem advances_skip (l : Layout) : Advances l.skip := by
  cases l with
  | plain => exact advances_pure _
  | byte => exact advances_byte.bind fun _ => advances_pure _
  | number => exact advances_u30.bind fun _ => advances_pure _
  | twoNumbers => exact advances_u30.bind fun _ => advances_u30.bind fun _ => advances_pure _
  | distance => exact advances_s24.bind fun _ => advances_pure _
  | debug =>
    exact advances_byte.bind fun _ => advances_u30.bind fun _ => advances_byte.bind fun _ =>
      advances_u30.bind fun _ => advances_pure _
  | «switch» => exact advances_readSwitch.bind fun _ => advances_pure _

theorem advances_skipInstruction (b : UInt8) : Advances (skipInstruction b) := by
  unfold skipInstruction
  split
  · exact advances_skip _
  · exact advances_throw _

end MethodJit.Cursor
