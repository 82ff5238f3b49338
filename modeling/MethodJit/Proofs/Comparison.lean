import MethodJit.Proofs.SelfComparison
import MethodJit.Proofs.Unwritten

/-!
# Comparing invocations

Two runs start from one machine, whose lane is linked to itself. When they have everything in their frames
at the end, the frames show values in pairs that stand for the same.
-/

namespace MethodJit

variable {σ : Type} {V V' : View} {h h' : Heap} {owned : Multiset Value} {K : Origin} {s : Setting}
  {keep : Multiset Link} {v w : Value}

theorem mem_localLinks {M : List (Local × Local)} {l : Link} :
    l ∈ localLinks M ↔ ∃ p ∈ M, l ∈ p.1.links p.2 := by
  induction M with
  | nil => simp [localLinks]
  | cons p M ih => rw [localLinks_cons, Multiset.mem_add, ih, List.exists_mem_cons_iff]

theorem mem_links_stored {l : Link} :
    l ∈ Local.links { value := v } { value := w } ↔ v ≠ .unbound ∧ l = Link.pair v w := by
  by_cases hv : v = .unbound <;> simp [Local.links, Local.strays, hv]

/-- Locals that are in their places. -/
theorem Lane.Pairs.locals_eq {Z : List (Item × Item)} {M : List (Local × Local)} {S : List (Value × Value)}
    (hp : Lane.Pairs s (V.lane h) (V'.lane h') Z M S) :
    M = (V.locals.zip V'.locals).map (Prod.map ({ value := · }) ({ value := · })) := by
  rw [List.zip_of_prod hp.locals_left.symm hp.locals_right.symm]
  simp only [View.lane]
  rw [List.zip_map]

/-- What is in two frames is in the hands of both runs. -/
theorem Lane.Pairs.shared {Z : List (Item × Item)} {M : List (Local × Local)} {S : List (Value × Value)}
    (hp : Lane.Pairs s (V.lane h) (V'.lane h') Z M S) : ∀ l ∈ laneLinks Z M S, l.Shared := by
  intro l hl
  rw [laneLinks, Multiset.mem_add, Multiset.mem_add] at hl
  rcases hl with (hl | hl) | hl
  · obtain ⟨p, -, rfl⟩ := List.mem_map.1 (Multiset.mem_coe.1 hl)
    trivial
  · obtain ⟨p, hmem, hl⟩ := mem_localLinks.1 hl
    rw [hp.locals_eq] at hmem
    obtain ⟨q, -, rfl⟩ := List.mem_map.1 hmem
    obtain ⟨-, rfl⟩ := mem_links_stored.1 hl
    trivial
  · obtain ⟨p, -, rfl⟩ := List.mem_map.1 (Multiset.mem_coe.1 hl)
    trivial

theorem shared_pairLinks (A : List (Value × Value)) : ∀ l ∈ pairLinks A, l.Shared := by
  intro l hl
  obtain ⟨p, -, rfl⟩ := List.mem_map.1 (Multiset.mem_coe.1 hl)
  trivial

end MethodJit
