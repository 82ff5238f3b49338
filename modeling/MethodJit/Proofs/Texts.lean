import Mathlib.Data.Finset.Card
import Mathlib.Data.Finset.Range
import MethodJit.Heap.Conversion

/-!
# Texts of nested arrays

The text of a value does not depend on how deep nested arrays are followed, once that is deeper than the
heap has cells: a value whose text is first found at a certain depth contains a value whose text is first
found one level below, and so on, and all of these are different cells.
-/

namespace MethodJit.Heap

variable {h : Heap} {v : Value} {α β : Type}

/-- The text of an element of an array. -/
def elemText (h : Heap) (depth : Nat) (e : Value) : Except Fault String :=
  if e.isNullish then pure "" else if e.isBound then h.textWithin depth e else throw .bounds

theorem textWithin_array {elems : Array Value} {a : Address} (hb : h.body? (.ref a) = some (.array elems))
    (depth : Nat) : h.textWithin (depth + 1) (.ref a) =
      (elems.toList.mapM (h.elemText depth)) >>= fun parts => pure (",".intercalate parts) := by
  simp only [textWithin, hb]
  rfl

/-- Only arrays look at the depth. -/
theorem textWithin_flat (hb : ∀ a elems, v = .ref a → h.body? v ≠ some (.array elems)) (d d' : Nat) :
    h.textWithin (d + 1) v = h.textWithin (d' + 1) v := by
  cases v with
  | ref a =>
    unfold textWithin
    cases hbody : h.body? (.ref a) with
    | none => rfl
    | some b =>
      cases b with
      | array elems => exact absurd hbody (hb a elems rfl)
      | _ => rfl
  | _ => rfl

theorem textWithin_flat_ne (hb : ∀ a elems, v = .ref a → h.body? v ≠ some (.array elems)) (d : Nat) :
    h.textWithin (d + 1) v ≠ .error .endless := by
  cases v with
  | ref a =>
    unfold textWithin
    cases hbody : h.body? (.ref a) with
    | none => exact nofun
    | some b =>
      cases b with
      | array elems => exact absurd hbody (hb a elems rfl)
      | _ => exact nofun
  | _ => exact nofun

theorem mapM_eq_of_ne {f g : α → Except Fault β} {l : List α}
    (hfg : ∀ x, f x ≠ .error .endless → g x = f x) (hl : l.mapM f ≠ .error .endless) :
    l.mapM g = l.mapM f := by
  induction l with
  | nil => rfl
  | cons x l ih =>
    rw [List.mapM_cons] at hl
    rw [List.mapM_cons, List.mapM_cons]
    cases hx : f x with
    | error e =>
      rw [hx] at hl
      have hne : f x ≠ .error .endless := by
        intro heq
        obtain rfl := Except.error.inj (hx.symm.trans heq)
        exact hl rfl
      rw [hfg x hne, hx]
      rfl
    | ok b =>
      rw [hfg x (by rw [hx]; exact nofun), hx]
      rw [hx] at hl
      have hrest : l.mapM f ≠ .error .endless := by
        intro heq
        rw [heq] at hl
        exact hl rfl
      exact congrArg (fun r => r >>= fun bs => pure (b :: bs)) (ih hrest)

theorem elemText_succ {d : Nat} {e : Value}
    (hd : ∀ {v}, h.textWithin d v ≠ .error .endless → h.textWithin (d + 1) v = h.textWithin d v)
    (he : h.elemText d e ≠ .error .endless) : h.elemText (d + 1) e = h.elemText d e := by
  unfold elemText at he ⊢
  split
  · rfl
  · rename_i hnull
    rw [if_neg hnull] at he
    split
    · rename_i hbound
      rw [if_pos hbound] at he
      exact hd he
    · rfl

/-- Looking one level deeper changes nothing if the text was found. -/
theorem textWithin_succ {d : Nat} (hd : h.textWithin d v ≠ .error .endless) :
    h.textWithin (d + 1) v = h.textWithin d v := by
  induction d generalizing v with
  | zero => exact absurd rfl hd
  | succ d ih =>
    by_cases hb : ∀ a elems, v = .ref a → h.body? v ≠ some (.array elems)
    · exact textWithin_flat hb (d + 1) d
    · push Not at hb
      obtain ⟨a, elems, rfl, hb⟩ := hb
      rw [textWithin_array hb] at hd
      rw [textWithin_array hb, textWithin_array hb]
      have hparts : elems.toList.mapM (h.elemText d) ≠ .error .endless := by
        intro heq
        rw [heq] at hd
        exact hd rfl
      rw [mapM_eq_of_ne (fun e he => elemText_succ ih he) hparts]

theorem textWithin_le {d d' : Nat} (hle : d ≤ d') (hd : h.textWithin d v ≠ .error .endless) :
    h.textWithin d' v = h.textWithin d v := by
  induction hle with
  | refl => rfl
  | step _ ih => rw [textWithin_succ (by rw [ih]; exact hd), ih]

/-- The text is first found at this depth. -/
def FoundAt (h : Heap) (n : Nat) (v : Value) : Prop :=
  h.textWithin n v = .error .endless ∧ h.textWithin (n + 1) v ≠ .error .endless

theorem FoundAt.unique {n m : Nat} (hn : h.FoundAt n v) (hm : h.FoundAt m v) : n = m := by
  rcases Nat.lt_trichotomy n m with hlt | heq | hlt
  · exact absurd (textWithin_le hlt hn.2 ▸ hm.1) hn.2
  · exact heq
  · exact absurd (textWithin_le hlt hm.2 ▸ hn.1) hm.2

/-- The element that kept the texts of a list from being found. -/
theorem exists_of_mapM {f g : α → Except Fault β} {l : List α}
    (hfg : ∀ x, f x ≠ .error .endless → g x = f x) (hf : l.mapM f = .error .endless)
    (hg : l.mapM g ≠ .error .endless) : ∃ x, f x = .error .endless ∧ g x ≠ .error .endless := by
  induction l with
  | nil => cases hf
  | cons x l ih =>
    rw [List.mapM_cons] at hf hg
    cases hx : f x with
    | error e =>
      rw [hx] at hf
      obtain rfl : e = .endless := Except.error.inj hf
      refine ⟨x, hx, fun heq => ?_⟩
      rw [heq] at hg
      exact hg rfl
    | ok b =>
      rw [hx] at hf
      rw [hfg x (by rw [hx]; exact nofun), hx] at hg
      refine ih ?_ ?_
      · cases hl : l.mapM f with
        | ok bs =>
          rw [hl] at hf
          cases hf
        | error e =>
          rw [hl] at hf
          exact congrArg Except.error (Except.error.inj hf)
      · intro heq
        rw [heq] at hg
        exact hg rfl

/-- What is found first at some depth is an array with an element that is found first one level below. -/
theorem FoundAt.descend {n : Nat} (hn : h.FoundAt (n + 1) v) :
    (∃ a, v = .ref a ∧ a < h.cells.size) ∧ ∃ e, h.FoundAt n e := by
  by_cases hb : ∀ a elems, v = .ref a → h.body? v ≠ some (.array elems)
  · exact absurd hn.1 (textWithin_flat_ne hb n)
  · push Not at hb
    obtain ⟨a, elems, rfl, hb⟩ := hb
    obtain ⟨c, hc, -⟩ := Option.map_eq_some_iff.1 hb
    refine ⟨⟨a, rfl, (Array.getElem?_eq_some_iff.1 hc).1⟩, ?_⟩
    obtain ⟨hn, hn'⟩ := hn
    rw [textWithin_array hb] at hn hn'
    obtain ⟨e, he, he'⟩ := exists_of_mapM (l := elems.toList)
      (fun _ he => elemText_succ textWithin_succ he)
      (by
        cases hl : elems.toList.mapM (h.elemText n) with
        | ok bs =>
          rw [hl] at hn
          cases hn
        | error f =>
          rw [hl] at hn
          exact congrArg Except.error (Except.error.inj hn))
      (by
        intro heq
        rw [heq] at hn'
        exact hn' rfl)
    refine ⟨e, ?_⟩
    unfold elemText at he he'
    split at he
    · cases he
    · rename_i hnull
      rw [if_neg hnull] at he'
      split at he
      · rename_i hbound
        rw [if_pos hbound] at he'
        exact ⟨he, he'⟩
      · cases he

theorem FoundAt.chain {n : Nat} (hn : h.FoundAt n v) :
    ∃ as : List Address, as.length = n ∧ as.Nodup ∧
      ∀ a ∈ as, a < h.cells.size ∧ ∃ k ≤ n, h.FoundAt k (.ref a) := by
  induction n generalizing v with
  | zero => exact ⟨[], rfl, List.nodup_nil, by simp⟩
  | succ n ih =>
    obtain ⟨⟨a, rfl, ha⟩, e, he⟩ := hn.descend
    obtain ⟨as, hlen, hnodup, has⟩ := ih he
    refine ⟨a :: as, by simp [hlen], List.nodup_cons.2 ⟨fun hm => ?_, hnodup⟩, ?_⟩
    · obtain ⟨-, k, hk, hfound⟩ := has a hm
      have := hfound.unique hn
      omega
    · intro b hb
      rcases List.mem_cons.1 hb with rfl | hb
      · exact ⟨ha, n + 1, Nat.le_refl _, hn⟩
      · obtain ⟨hlt, k, hk, hfound⟩ := has b hb
        exact ⟨hlt, k, Nat.le_succ_of_le hk, hfound⟩

theorem FoundAt.le_size {n : Nat} (hn : h.FoundAt n v) : n ≤ h.cells.size := by
  obtain ⟨as, hlen, hnodup, has⟩ := hn.chain
  have hsub : as.toFinset ⊆ Finset.range h.cells.size := fun a ha =>
    Finset.mem_range.2 (has a (List.mem_toFinset.1 ha)).1
  have hcard := Finset.card_le_card hsub
  rwa [List.toFinset_card_of_nodup hnodup, Finset.card_range, hlen] at hcard

/-- Beyond the number of cells the depth does not matter. -/
theorem textWithin_eq_toText {d : Nat} (hd : h.cells.size + 1 ≤ d) (v : Value) :
    h.textWithin d v = h.toText v := by
  by_cases hfound : h.toText v = .error .endless
  · rw [hfound]
    by_contra hne
    -- The least depth at which the text is found is beyond the size of the heap.
    induction hd with
    | refl => exact hne hfound
    | @step m hle ih =>
      by_cases hm : h.textWithin m v = .error .endless
      · exact absurd (FoundAt.le_size ⟨hm, hne⟩) (Nat.not_le.2 hle)
      · exact ih hm
  · exact textWithin_le hd hfound

end MethodJit.Heap
