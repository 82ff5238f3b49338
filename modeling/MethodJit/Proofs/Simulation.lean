import MethodJit.Proofs.TaskCode

/-!
# Interpreted and compiled runs in lockstep

A station has a task, which the interpreter and the program both carry out, so that the runs behind it are
compared at the same position again. Two runs of one program are compared block by block: inside a block the
positions increase, and between blocks the number of blocks that can still be run decreases. The interpreter
counts instructions and the program counts blocks, so that one of the two can be exhausted before the other;
`Paced` says when.
-/

namespace MethodJit

open Compiler IR Interpreter

variable {σ : Type} {K : Origin} {s : Setting} {I : σ → Prop} {keep : Multiset Link} {G : List Link}
  {Φ : EStateM.Result Fault (Machine σ) Value → EStateM.Result Fault (Machine σ) Value → Prop}
  {host : Host σ} {m : Method} {e e' ef : Emitter} {p : Program} {f q n pos : Nat} {S S' T T' : Side σ}

/-- The instruction at a station is a task. -/
theorem Compiler.Station.exists_task (hst : Station m ef pos e) (hapart : m.EnumeratesApart) :
    ∃ byte task, m.bytes[pos]? = some byte ∧ Denotes m byte (pos + 1) task ∧
      task.Within m.locals.toNatClampNeg := by
  obtain ⟨byte, next, e', hbyte, hinstr, -, -⟩ := hst.translated
  have hdecodes := (instruction_decodes e byte (pos + 1)).ok hinstr
  rw [hst.method] at hdecodes
  obtain ⟨task, hden⟩ := exists_denotes hdecodes.readable
  exact ⟨byte, task, hbyte, hden, hden.within hapart hst.starts hbyte⟩

/-- Sides that do the same from the states at their places. -/
theorem Meets.of_runs (hS : ∀ mc ℓ, S.fits mc ℓ → T.fits mc ℓ ∧ S.run mc = T.run mc)
    (hS' : ∀ mc ℓ, S'.fits mc ℓ → T'.fits mc ℓ ∧ S'.run mc = T'.run mc) (h : Meets K s I keep Φ T T') :
    Meets K s I keep Φ S S' := by
  intro mc mc' ⟨hhost, hI, k, ℓ, ℓ', hf, hf', hj⟩
  obtain ⟨hT, hrun⟩ := hS mc ℓ hf
  obtain ⟨hT', hrun'⟩ := hS' mc' ℓ' hf'
  rw [hrun, hrun']
  exact h mc mc' ⟨hhost, hI, k, ℓ, ℓ', hT, hT', hj⟩

/-- Two sides that have to store everything first. -/
theorem Meets.of_syncAll {N N' : Side σ → Prop}
    (hΦ : ∀ r r', Agree (machineBridge K s I) keep True Gives r r' → Φ r r')
    (hS : S.Carries False Lane.syncAll fun _ T => N T) (hS' : S'.Carries False Lane.syncAll fun _ T => N' T)
    (hnext : ∀ T T', N T → N' T' → Meets K s I keep Φ T T') : Meets K s I keep Φ S S' := by
  have hsync (k : Nat) : Twin (laneBridge K { s with jumps := k }) [] 0 False Lane.syncAll Lane.syncAll Done :=
    Lane.twin_syncAll
  refine .of_carries hΦ hS hS' hsync (fun _ hl => absurd hl List.not_mem_nil) False.elim ?_
  intro _ _ P T T' hP hT hT'
  rw [hP, zero_add]
  exact hnext T T' hT hT'

/-! ## Two runs of a program -/

section Program

variable (ha : Accepts m ef) (hfn : ef.function.Sound) (hp : ef.function.lower = .ok p) (hapart : m.EnumeratesApart)
  (hhost : Faithful K I G host) (hG : ∀ l ∈ G, l ∈ keep) (hg : Link.pair s.global s.global ∈ keep)

/-- Two runs of the program that go on at the same position. -/
theorem meets_resumes (hΦ : ∀ r r', Agree (machineBridge K s I) keep True Gives r r' → Φ r r')
    (hcode : ∀ (pos : Nat) e e' regs regs', q ≤ pos → Station m ef pos e → Station m ef pos e' →
      Meets K s I keep Φ (Side.code host p ef f e regs) (Side.code host p ef f e' regs'))
    (hblock : ∀ (pos : Nat) b regs regs', ef.blocks.get? pos = some b → Furnished ef regs → Furnished ef regs' →
      Meets K s I keep Φ (Side.block host p m f b.toNat regs) (Side.block host p m f b.toNat regs'))
    (hT : Side.Resumes host p m ef f q pos T) (hT' : Side.Resumes host p m ef f q pos T') :
    Meets K s I keep Φ T T' := by
  cases hT with
  | inside regs hnone hst hq =>
    cases hT' with
    | inside regs' _ hst' _ => exact hcode _ _ _ regs regs' hq hst hst'
    | entering hb _ =>
      rw [hnone] at hb
      cases hb
  | entering hb h =>
    cases hT' with
    | inside _ hnone _ _ =>
      rw [hnone] at hb
      cases hb
    | entering hb' h' =>
      rw [hb] at hb'
      cases hb'
      refine .of_syncAll hΦ h h' ?_
      rintro _ _ ⟨regs, hregs, rfl⟩ ⟨regs', hregs', rfl⟩
      exact hblock _ _ regs regs' hb hregs hregs'

include ha hapart hhost hG hg

/-- Two runs of the program inside a block. The positions increase up to the end of the code. -/
theorem meets_code (hΦ : ∀ r r', Agree (machineBridge K s I) keep True Gives r r' → Φ r r')
    (hblock : ∀ (pos : Nat) b regs regs', ef.blocks.get? pos = some b → Furnished ef regs → Furnished ef regs' →
      Meets K s I keep Φ (Side.block host p m f b.toNat regs) (Side.block host p m f b.toNat regs'))
    (hn : m.bytes.size ≤ pos + n) (regs regs' : IR.Registers) (hst : Station m ef pos e)
    (hst' : Station m ef pos e') :
    Meets K s I keep Φ (Side.code host p ef f e regs) (Side.code host p ef f e' regs') := by
  induction n generalizing pos e e' regs regs' with
  | zero =>
    obtain ⟨byte, -, -, hbyte, -⟩ := hst.translated
    rw [Array.getElem?_eq_none (show m.bytes.size ≤ pos from hn)] at hbyte
    cases hbyte
  | succ n ih =>
    obtain ⟨byte, task, hbyte, hden, hwithin⟩ := hst.exists_task hapart
    obtain ⟨how, hdoes⟩ := Side.code_does ha hst hbyte hden hwithin
    obtain ⟨how', hdoes'⟩ := Side.code_does ha hst' hbyte hden hwithin
    refine .of_does hΦ hhost hG hg (hdoes f regs) (hdoes' f regs')
      (fun k => Task.twin (fun h => h) (List.mem_singleton.2 rfl) how how' hwithin)
      (fun ht => Task.codeless ht .lazy how) ?_
    intro next T T' hT hT'
    apply meets_resumes hΦ ?_ hblock hT hT'
    intro next e e' regs regs' hq hst hst'
    exact ih (by omega) regs regs' hst hst'

include hfn hp

/-- Two runs of the program from the start of a block on. -/
theorem meets_block {b : BlockId} {regs regs' : IR.Registers} (hb : ef.blocks.get? (pos : Int) = some b)
    (hregs : Furnished ef regs) (hregs' : Furnished ef regs') :
    Meets K s I keep (Agree (machineBridge K s I) keep True Gives) (Side.block host p m f b.toNat regs)
      (Side.block host p m f b.toNat regs') := by
  induction f generalizing pos b regs regs' with
  | zero =>
    intro mc mc' habreast
    have hj := habreast.joined (fun _ hf => hf.2) fun _ hf => hf.2
    exact ⟨hj.owns_left, hj.owns_right⟩
  | succ f ih =>
    obtain ⟨e, hst, hblock⟩ := Side.code_of_block (f := f) ha hfn hp hb
    refine .of_runs (hblock regs hregs) (hblock regs' hregs') ?_
    have hn : m.bytes.size ≤ pos + m.bytes.size := by omega
    refine meets_code ha hapart hhost hG hg (fun _ _ h => h) ?_ hn regs regs' hst hst
    intro next b regs regs' hb hregs hregs'
    exact ih hb hregs hregs'

end Program

/-! ## The interpreter and the program -/

/-- The run was given too few steps. -/
def Exhausted {τ α : Type} (r : EStateM.Result Fault τ α) : Prop := ∃ st, r = .error .exhausted st

/-- An interpreted run of at most `n` instructions and a run of the program of at most `f` more blocks agree,
unless one of them was given too few steps for the other. -/
def Paced (K : Origin) (s : Setting) (I : σ → Prop) (keep : Multiset Link) (n k f : Nat)
    (r r' : EStateM.Result Fault (Machine σ) Value) : Prop :=
  Agree (machineBridge K s I) keep True Gives r r' ∨ (Exhausted r ∧ n < k) ∨ (Exhausted r' ∧ f < n)

theorem Paced.mono {n' k k' f' : Nat} {r r' : EStateM.Result Fault (Machine σ) Value}
    (h : Paced K s I keep n k f r r') (hn : n < k → n' < k') (hf : f < n → f' < n') :
    Paced K s I keep n' k' f' r r' := by
  rcases h with h | ⟨hr, hlt⟩ | ⟨hr', hlt⟩
  · exact .inl h
  · exact .inr (.inl ⟨hr, hn hlt⟩)
  · exact .inr (.inr ⟨hr', hf hlt⟩)

end MethodJit
