import MethodJit.Proofs.PropertyOrder

/-!
# Elements of arrays

The elements of an array are its properties under the decimal forms of their positions, and no other name
stands for a position. Storing under such a name puts the value at its position and fills up with undefined as
far as needed; storing under another name drops the value. In both cases a reference is given up, which can be
the last one that keeps the array itself alive: then the array is emptied, as everything that is given up.
-/

namespace MethodJit

variable {owned : Multiset Value} {h h' h₁ : Heap} {o x v : Value} {elems elems' : Array Value} {name : String}
  {i n : Nat}

/-! ## Names of positions -/

theorem foldl_toDigits (n : Nat) :
    (Nat.toDigits 10 n).foldl (fun n c => n * 10 + (c.toNat - 48)) 0 = n := by
  have hread : Nat.ofDigitChars 10 (Nat.toDigits 10 n) 0 = n := Nat.ofDigitChars_toDigits (by decide) (by decide)
  have hstep : (fun (n : Nat) (c : Char) => n * 10 + (c.toNat - 48)) = fun n c => 10 * n + (c.toNat - '0'.toNat) :=
    funext fun n => funext fun c => by rw [Nat.mul_comm]; rfl
  rw [hstep, ← Nat.ofDigitChars_eq_foldl]
  exact hread

theorem toList_toString (n : Nat) : (toString n).toList = Nat.toDigits 10 n := by
  rw [Nat.toString_eq_ofList_toDigits, String.toList_ofList]

/-- Exactly the decimal forms of numbers below `2 ^ 63` stand for positions. -/
theorem arrayIndex?_eq_some_iff : arrayIndex? name = some i ↔ name = toString i ∧ i < 2 ^ 63 := by
  unfold arrayIndex?
  constructor
  · intro h
    dsimp only at h
    split at h
    · split at h
      · rename_i hread
        cases h
        exact ⟨hread.2.symm, hread.1⟩
      · cases h
    · cases h
  · rintro ⟨rfl, hi⟩
    have hdigits : (toString i).toList.all Char.isDigit = true := by
      rw [toList_toString, List.all_eq_true]
      exact fun c hc => Nat.isDigit_of_mem_toDigits (by decide) (by decide) hc
    dsimp only
    rw [if_pos hdigits, toList_toString, foldl_toDigits, if_pos ⟨hi, rfl⟩]

theorem arrayIndex?_toString (hi : i < 2 ^ 63) : arrayIndex? (toString i) = some i :=
  arrayIndex?_eq_some_iff.2 ⟨rfl, hi⟩

namespace Heap.Relieved

theorem body?_of_live (hr : h.Relieved h') (hv : h'.Live v) : h'.body? v = h.body? v := by
  cases v with
  | ref a =>
    obtain ⟨c', hc', hlive⟩ := hv
    have hlt : a < h.cells.size := hr.size ▸ (Array.getElem?_eq_some_iff.1 hc').1
    obtain ⟨d, hd, -, hbody⟩ := hr.cells a h.cells[a] (Array.getElem?_eq_getElem hlt)
    obtain rfl : c' = d := Option.some.inj (hc'.symm.trans hd)
    rw [if_neg fun hdied => hlive hdied.2] at hbody
    simp [Heap.body?, Heap.cell?, hc', hlt, hbody]
  | _ => rfl

end Heap.Relieved

theorem Accounted.exists_release_relieved (hac : Accounted (owned + {v}) h) (hv : v ≠ .unbound) :
    ∃ h', MethodJit.release v h = .ok () h' ∧ Accounted owned h' ∧ h.Relieved h' := by
  obtain ⟨h', hok, hac'⟩ := hac.exists_release hv
  exact ⟨h', hok, hac', Cascade.relieved_of_steps (s := ⟨[v], h⟩) (Cascade.steps_of_releaseAll [v] hok)⟩

/-! ## Reading and storing -/

theorem release_undefined (h : Heap) : release .undefined h = .ok () h := by
  unfold release
  rw [Heap.releaseAll, Heap.releaseAll]

end MethodJit
