import MethodJit.Proofs.CallAccounts
import MethodJit.Proofs.Comparison
import MethodJit.Proofs.Renaming

/-!
# Programs and the interpreter

The program of a method does what the interpreter does with the method. Either of them ends if the other one
does, and they end alike: with the same value or the same thrown value, after as many jumps, and with heaps that
are the same up to the addresses of what was made meanwhile. Giving up the frames leaves them the same.
-/

namespace MethodJit

open Compiler IR Interpreter

variable {σ : Type} {K : Origin} {s : Setting} {I : σ → Prop} {P keep : Multiset Link} {h h' : Heap}
  {mc mc' : Machine σ} {given : List (Value × Value)} {owned : Multiset Value} {m : Method} {w : World}

/-- Heaps with values in them that are the same up to the addresses of cells that are not among the `old` ones. -/
def Heap.Same (old : Nat) (given : List (Value × Value)) (h h' : Heap) : Prop :=
  ∃ ρ, h.Renamed old ρ h' ∧ ∀ p ∈ given, p.1.Renamed ρ p.2

theorem Linked.same (hl : Linked K P h h') (hP : ∀ l ∈ P, l.Shared) (hgiven : ∀ p ∈ given, Link.pair p.1 p.2 ∈ P) :
    Heap.Same K.size given h h' := by
  obtain ⟨G, ψ, ψ', A, hb, -⟩ := hl
  have hshared (l : Link) (hmem : l ∈ pairLinks A + P) : l.Shared :=
    (Multiset.mem_add.1 hmem).elim (shared_pairLinks A l) (hP l)
  exact ⟨_, hb.renamed hshared, fun p hp => hb.renamed_pair (Multiset.mem_add.2 (.inr (hgiven p hp)))⟩

/-- Two invocations that have ended alike, and stay the same when their frames are given up. -/
structure Machine.Alike (old : Nat) (given : List (Value × Value)) (mc mc' : Machine σ) : Prop where
  host : mc.host = mc'.host
  jumps : mc.frame.jumps = mc'.frame.jumps
  heaps : Heap.Same old given mc.heap mc'.heap
  released : ∃ mc₁ mc₁', releaseFrame mc = .ok () mc₁ ∧ releaseFrame mc' = .ok () mc₁' ∧
    Heap.Same old given mc₁.heap mc₁'.heap

theorem Machine.Joined.alike (hj : Machine.Joined K s I P mc mc') (hP : ∀ l ∈ P, l.Shared)
    (hgiven : ∀ p ∈ given, Link.pair p.1 p.2 ∈ P) : mc.Alike K.size given mc' := by
  obtain ⟨mc₁, mc₁', hrelease, hrelease', -, -, hl⟩ := hj.releaseFrame
  obtain ⟨hhost, -, V, V', n, hV, hV', Z, M, S, hp, -, hlinked⟩ := hj
  refine ⟨hhost, ?_, hlinked.same ?_ ?_, mc₁, mc₁', hrelease, hrelease', hl.same hP hgiven⟩
  · have hsame : V.toSetting = V'.toSetting := hp.setting_left.trans hp.setting_right.symm
    rw [hV.jumps, hV'.jumps, hsame]
  · exact fun l hl => (Multiset.mem_add.1 hl).elim (hp.shared l) (hP l)
  · exact fun p hp => Multiset.mem_add.2 (.inr (hgiven p hp))

/-- An engine without methods, and a function of the program around. -/
def World.idle : World :=
  { World.ofMethods #[] false with engines := #[⟨{}, .null⟩], foreign := #[Foreign.callBack] }

end MethodJit
