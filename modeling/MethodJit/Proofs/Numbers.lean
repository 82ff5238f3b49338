import Mathlib.Algebra.BigOperators.Ring.List
import Mathlib.Tactic.Ring
import MethodJit.Proofs.Reading

/-!
# Numbers in code

A number stands in code as groups of seven bits. Reading takes the groups up to the first that says that
no more follow, five at most, and gives their sum in 32 bits. So a number of five groups can be taken for
a smaller one, also by a reader that refuses large numbers; all other groups are read as what they are.
What the encoders write is read back, wherever it stands in the code.
-/

namespace MethodJit

namespace Immediate

variable {code : Array UInt8} {pos v n m acc : Nat} {b : UInt8} {gs : List UInt8}

/-- The number that groups stand for, the least significant first. -/
def groupSum (gs : List UInt8) : Nat := (gs.mapIdx fun i b => b.toNat % 128 * 128 ^ i).sum

theorem groupSum_cons (b : UInt8) (gs : List UInt8) :
    groupSum (b :: gs) = b.toNat % 128 + 128 * groupSum gs := by
  have htail : (gs.mapIdx fun i b => b.toNat % 128 * 128 ^ (i + 1)) =
      (gs.mapIdx fun i b => b.toNat % 128 * 128 ^ i).map fun n => 128 * id n := by
    apply List.ext_getElem (by simp)
    intro i _ _
    simp only [List.getElem_mapIdx, List.getElem_map, id]
    ring
  simp only [groupSum, List.mapIdx_cons, List.sum_cons, pow_zero, mul_one]
  rw [htail, List.sum_map_mul_left, List.map_id]

/-- All groups but the last say that more follow. -/
structure IsNumeral (gs : List UInt8) : Prop where
  more : ∀ b ∈ gs.dropLast, 128 ≤ b
  last : ∃ b ∈ gs.getLast?, b < 128

theorem not_isNumeral_nil : ¬IsNumeral [] := fun h => by simpa using h.last

theorem isNumeral_singleton : IsNumeral [b] ↔ b < 128 := by
  refine ⟨fun h => by simpa using h.last, fun h => ⟨by simp, b, by simp, h⟩⟩

theorem isNumeral_cons (hb : 128 ≤ b) : IsNumeral (b :: gs) ↔ IsNumeral gs := by
  cases gs with
  | nil =>
    rw [isNumeral_singleton]
    exact ⟨fun h => absurd hb (UInt8.not_le.2 h), fun h => (not_isNumeral_nil h).elim⟩
  | cons c gs =>
    constructor
    · exact fun h => ⟨fun d hd => h.more d (by simp [hd]), by simpa using h.last⟩
    · intro h
      refine ⟨?_, by simpa using h.last⟩
      rw [List.dropLast_cons_cons]
      exact List.forall_mem_cons.2 ⟨hb, h.more⟩

theorem IsNumeral.eq_singleton (h : IsNumeral (b :: gs)) (hb : b < 128) : gs = [] := by
  cases gs with
  | nil => rfl
  | cons c gs => exact absurd (h.more b (by simp)) (UInt8.not_le.2 hb)

theorem getElem?_eq_drop (code : Array UInt8) (i : Nat) : code[i]? = (code.toList.drop i).head? := by
  rw [List.head?_drop, Array.getElem?_toList]

theorem groupsAt_eq_ok_iff (groups : Nat) :
    groupsAt code pos groups n acc = ⟨v, m, none⟩ ↔
      ∃ gs, IsNumeral gs ∧ gs <+: code.toList.drop (pos + n) ∧ gs.length ≤ groups ∧ n + gs.length = m ∧
        (acc + groupSum gs * 128 ^ n) % 2 ^ 32 = v := by
  induction groups generalizing n acc with
  | zero =>
    refine ⟨fun h => by simp [groupsAt] at h, ?_⟩
    rintro ⟨gs, hgs, -, hlen, -⟩
    rw [List.length_eq_zero_iff.1 (Nat.le_zero.1 hlen)] at hgs
    exact (not_isNumeral_nil hgs).elim
  | succ groups ih =>
    rw [groupsAt, getElem?_eq_drop]
    cases hrest : code.toList.drop (pos + n) with
    | nil =>
      refine ⟨fun h => by simp at h, ?_⟩
      rintro ⟨gs, hgs, hpre, -⟩
      rw [List.prefix_nil.1 hpre] at hgs
      exact (not_isNumeral_nil hgs).elim
    | cons b rest =>
      have htail : code.toList.drop (pos + (n + 1)) = rest := by
        rw [← Nat.add_assoc, ← List.drop_drop, hrest, List.drop_one, List.tail_cons]
      simp only [List.head?_cons]
      by_cases hb : b < 128
      · rw [if_pos hb]
        constructor
        · intro h
          obtain ⟨rfl, rfl, -⟩ := Decoded.mk.inj h
          refine ⟨[b], isNumeral_singleton.2 hb, by simp, by simp, rfl, ?_⟩
          rw [groupSum_cons]
          rfl
        · rintro ⟨gs, hgs, hpre, -, rfl, rfl⟩
          obtain ⟨c, gs, rfl⟩ := List.exists_cons_of_ne_nil fun h => not_isNumeral_nil (h ▸ hgs)
          obtain rfl := (List.cons_prefix_cons.1 hpre).1
          rw [hgs.eq_singleton hb, groupSum_cons]
          rfl
      · have hmore := UInt8.not_lt.1 hb
        rw [if_neg hb, ih, htail]
        constructor
        · rintro ⟨gs, hgs, hpre, hlen, rfl, rfl⟩
          refine ⟨b :: gs, (isNumeral_cons hmore).2 hgs, List.cons_prefix_cons.2 ⟨rfl, hpre⟩,
            Nat.succ_le_succ hlen, by simp only [List.length_cons]; omega, ?_⟩
          rw [groupSum_cons]
          congr 1
          simp only [Nat.pow_eq]
          ring
        · rintro ⟨gs, hgs, hpre, hlen, rfl, rfl⟩
          obtain ⟨c, gs, rfl⟩ := List.exists_cons_of_ne_nil fun h => not_isNumeral_nil (h ▸ hgs)
          obtain ⟨rfl, htail⟩ := List.cons_prefix_cons.1 hpre
          refine ⟨gs, (isNumeral_cons hmore).1 hgs, htail, Nat.le_of_succ_le_succ hlen,
            by simp only [List.length_cons]; omega, ?_⟩
          rw [groupSum_cons]
          congr 1
          simp only [Nat.pow_eq]
          ring

/-- At most five groups that stand at a place in the code. -/
structure NumeralAt (code : Array UInt8) (pos : Nat) (gs : List UInt8) : Prop where
  numeral : IsNumeral gs
  place : gs <+: code.toList.drop pos
  short : gs.length ≤ 5

/-- Up to five groups are read as their sum in 32 bits. -/
theorem u32At_eq_ok_iff :
    u32At code pos = ⟨v, n, none⟩ ↔ ∃ gs, NumeralAt code pos gs ∧ gs.length = n ∧ groupSum gs % 2 ^ 32 = v := by
  rw [u32At, groupsAt_eq_ok_iff]
  constructor
  · rintro ⟨gs, hgs, hpre, hlen, rfl, rfl⟩
    exact ⟨gs, ⟨hgs, hpre, hlen⟩, (Nat.zero_add _).symm, by simp⟩
  · rintro ⟨gs, ⟨hgs, hpre, hlen⟩, rfl, rfl⟩
    exact ⟨gs, hgs, hpre, hlen, Nat.zero_add _, by simp⟩

theorem u30At_eq_ok_iff :
    u30At code pos = ⟨v, n, none⟩ ↔ u32At code pos = ⟨v, n, none⟩ ∧ v < 2 ^ 30 := by
  rw [u30At]
  cases hr : u32At code pos with
  | mk w k fault =>
    cases fault with
    | some e => simp
    | none =>
      by_cases hw : w < 0x40000000
      · simp only [hw, if_true, Decoded.mk.injEq, and_true]
        exact ⟨fun h => ⟨h, h.1 ▸ hw⟩, fun h => h.1⟩
      · simp only [hw, if_false, Decoded.mk.injEq, reduceCtorEq, and_false, false_iff, and_true]
        rintro ⟨⟨rfl, -⟩, hv⟩
        exact hw hv

/-- At most one number stands at a place. -/
theorem NumeralAt.unique {gs' : List UInt8} (h : NumeralAt code pos gs) (h' : NumeralAt code pos gs') : gs = gs' := by
  obtain ⟨hnum, hpre, -⟩ := h
  obtain ⟨hnum', hpre', -⟩ := h'
  generalize code.toList.drop pos = l at hpre hpre'
  induction l generalizing gs gs' with
  | nil => rw [List.prefix_nil.1 hpre, List.prefix_nil.1 hpre']
  | cons b l ih =>
    obtain ⟨c, gs, rfl⟩ := List.exists_cons_of_ne_nil fun heq => not_isNumeral_nil (heq ▸ hnum)
    obtain ⟨c', gs', rfl⟩ := List.exists_cons_of_ne_nil fun heq => not_isNumeral_nil (heq ▸ hnum')
    obtain ⟨rfl, htail⟩ := List.cons_prefix_cons.1 hpre
    obtain ⟨rfl, htail'⟩ := List.cons_prefix_cons.1 hpre'
    by_cases hc : c' < 128
    · rw [hnum.eq_singleton hc, hnum'.eq_singleton hc]
    · have hmore := UInt8.not_lt.1 hc
      rw [ih ((isNumeral_cons hmore).1 hnum) ((isNumeral_cons hmore).1 hnum') htail htail']

/-- A number below `2 ^ 30` is read, and no error is reported, exactly where at most five groups have such a sum in
32 bits. The sums themselves are read, and only sums below `2 ^ 30`, unless the groups have a sum that is too
large for 32 bits but looks small in them. -/
theorem u30At_reads_sum_iff (code : Array UInt8) (pos : Nat) :
    (∀ v n, u30At code pos = ⟨v, n, none⟩ ↔
      ∃ gs, NumeralAt code pos gs ∧ gs.length = n ∧ groupSum gs % 2 ^ 32 = v ∧ v < 2 ^ 30) ∧
    ((∀ v n, u30At code pos = ⟨v, n, none⟩ ↔
        ∃ gs, NumeralAt code pos gs ∧ gs.length = n ∧ groupSum gs = v ∧ v < 2 ^ 30) ↔
      ¬∃ gs, NumeralAt code pos gs ∧ 2 ^ 32 ≤ groupSum gs ∧ groupSum gs % 2 ^ 32 < 2 ^ 30) := by
  have hreads (v n : Nat) : u30At code pos = ⟨v, n, none⟩ ↔
      ∃ gs, NumeralAt code pos gs ∧ gs.length = n ∧ groupSum gs % 2 ^ 32 = v ∧ v < 2 ^ 30 := by
    rw [u30At_eq_ok_iff, u32At_eq_ok_iff]
    constructor
    · rintro ⟨⟨gs, hgs, hlen, hv⟩, hsmall⟩
      exact ⟨gs, hgs, hlen, hv, hsmall⟩
    · rintro ⟨gs, hgs, hlen, hv, hsmall⟩
      exact ⟨⟨gs, hgs, hlen, hv⟩, hsmall⟩
  refine ⟨hreads, ?_, ?_⟩
  · rintro hsum ⟨gs, hgs, hlarge, hsmall⟩
    have hok := (hreads _ _).2 ⟨gs, hgs, rfl, rfl, hsmall⟩
    obtain ⟨gs', hgs', -, heq, -⟩ := (hsum _ _).1 hok
    obtain rfl := hgs.unique hgs'
    omega
  · intro hnone v n
    rw [hreads]
    constructor
    · rintro ⟨gs, hgs, rfl, rfl, hsmall⟩
      have hlt : groupSum gs < 2 ^ 32 := by
        by_contra hlarge
        exact hnone ⟨gs, hgs, Nat.not_lt.1 hlarge, hsmall⟩
      exact ⟨gs, hgs, rfl, (Nat.mod_eq_of_lt hlt).symm, hsmall⟩
    · rintro ⟨gs, hgs, hlen, rfl, hsmall⟩
      exact ⟨gs, hgs, hlen, Nat.mod_eq_of_lt (by omega), hsmall⟩

/-- The fifth group is cut off. -/
example : groupSum [128, 128, 128, 128, 16] = 2 ^ 32 ∧ u30At #[128, 128, 128, 128, 16] 0 = ⟨0, 5, none⟩ := by
  decide

/-! ## Reading what was written -/

theorem encodeGroups_spec (groups : Nat) (hn : n < 128 ^ (groups + 1)) :
    IsNumeral (encodeGroups groups n) ∧ groupSum (encodeGroups groups n) = n ∧
      (encodeGroups groups n).length ≤ groups + 1 := by
  have hlast {n : Nat} (hn : n < 128) : IsNumeral [.ofNat n] ∧ groupSum [.ofNat n] = n := by
    have hbyte : (UInt8.ofNat n).toNat = n := UInt8.toNat_ofNat_of_lt' (Nat.lt_trans hn (by decide))
    refine ⟨isNumeral_singleton.2 (UInt8.lt_iff_toNat_lt.2 (by rwa [hbyte])), ?_⟩
    rw [groupSum_cons, hbyte, Nat.mod_eq_of_lt hn]
    rfl
  induction groups generalizing n with
  | zero =>
    obtain ⟨hnum, hsum⟩ := hlast (n := n) (by simpa using hn)
    exact ⟨hnum, hsum, Nat.le_refl 1⟩
  | succ groups ih =>
    rw [encodeGroups]
    split
    · rename_i hsmall
      obtain ⟨hnum, hsum⟩ := hlast hsmall
      exact ⟨hnum, hsum, by simp⟩
    · have hfits : n % 128 + 128 < 256 := by omega
      have hbyte : (UInt8.ofNat (n % 128 + 128)).toNat = n % 128 + 128 := UInt8.toNat_ofNat_of_lt' hfits
      have hdiv : n / 128 < 128 ^ (groups + 1) := by
        rw [Nat.div_lt_iff_lt_mul (by decide), ← pow_succ]
        exact hn
      obtain ⟨hnum, hsum, hlen⟩ := ih hdiv
      refine ⟨(isNumeral_cons (UInt8.le_iff_toNat_le.2 ?_)).2 hnum, ?_, Nat.succ_le_succ hlen⟩
      · rw [hbyte]
        exact Nat.le_add_left _ _
      · rw [groupSum_cons, hsum, hbyte]
        omega

theorem drop_between (before bs after : List UInt8) :
    (before ++ bs ++ after).toArray.toList.drop before.length = bs ++ after := by
  rw [List.append_assoc, List.drop_left]

theorem getElem?_between (before bs after : List UInt8) (i : Nat) :
    (before ++ bs ++ after).toArray[before.length + i]? = (bs ++ after)[i]? := by
  rw [List.getElem?_toArray, List.append_assoc, List.getElem?_append_right (Nat.le_add_right _ _),
    Nat.add_sub_cancel_left]

theorem u32At_encodeU32 (n : UInt32) (before after : List UInt8) :
    u32At (before ++ encodeU32 n ++ after).toArray before.length = ⟨n.toNat, (encodeU32 n).length, none⟩ := by
  obtain ⟨hnum, hsum, hlen⟩ := encodeGroups_spec 4 (n := n.toNat) (Nat.lt_trans n.toNat_lt (by decide))
  refine u32At_eq_ok_iff.2 ⟨encodeU32 n, ⟨hnum, ?_, hlen⟩, rfl, ?_⟩
  · rw [drop_between]
    exact List.prefix_append _ _
  · rw [encodeU32, hsum]
    exact Nat.mod_eq_of_lt n.toNat_lt

theorem u30At_encodeU32 {n : UInt32} (hn : n < 0x40000000) (before after : List UInt8) :
    u30At (before ++ encodeU32 n ++ after).toArray before.length = ⟨n.toNat, (encodeU32 n).length, none⟩ :=
  u30At_eq_ok_iff.2 ⟨u32At_encodeU32 n before after, UInt32.lt_iff_toNat_lt.1 hn⟩

theorem u8At_byte (b : UInt8) (before after : List UInt8) :
    u8At (before ++ [b] ++ after).toArray before.length = ⟨b.toNat, 1, none⟩ := by
  have hget := getElem?_between before [b] after 0
  rw [Nat.add_zero] at hget
  rw [u8At, hget]
  rfl

/-- The low 24 bits as a signed number. -/
theorem signExtend24_toNat_emod (x : Int) : signExtend24 (x % 0x1000000).toNat = x.bmod (2 ^ 24) := by
  rw [signExtend24, Int.bmod_def]
  split <;> split <;> omega

theorem s24At_encodeS24 (x : Int32) (before after : List UInt8) :
    s24At (before ++ encodeS24 x ++ after).toArray before.length = ⟨x.toInt.bmod (2 ^ 24), 3, none⟩ := by
  have hget := getElem?_between before (encodeS24 x) after
  have hbyte {n : Nat} (hn : n < 256) : (UInt8.ofNat n).toNat = n := UInt8.toNat_ofNat_of_lt' hn
  have hlow : (x.toInt % 0x1000000).toNat < 0x1000000 := by omega
  rw [s24At, ← Nat.add_zero before.length, Nat.add_assoc, Nat.add_assoc, hget, hget, hget, Nat.zero_add,
    Nat.zero_add, encodeS24]
  simp only [List.cons_append, List.nil_append, List.getElem?_cons_zero, List.getElem?_cons_succ]
  rw [hbyte (Nat.mod_lt _ (by decide)), hbyte (Nat.mod_lt _ (by decide)), hbyte (by omega),
    ← signExtend24_toNat_emod]
  congr 2
  omega

end Immediate

/-- The forms of immediates. -/
inductive Form
  | byte
  | number
  | distance
deriving DecidableEq, Repr

/-- Reads an immediate of a form. -/
def Form.read : Form → Cursor.Read Int
  | .byte => (fun n : Nat => (n : Int)) <$> Cursor.byte
  | .number => (fun n : Nat => (n : Int)) <$> Cursor.u30
  | .distance => Cursor.s24

/-- An immediate that is to be written. -/
inductive Operand
  | byte (b : UInt8)
  | number (n : UInt32) (small : n < 0x40000000)
  | distance (x : Int32)

namespace Operand

def form : Operand → Form
  | .byte _ => .byte
  | .number .. => .number
  | .distance _ => .distance

def bytes : Operand → List UInt8
  | .byte b => [b]
  | .number n _ => Immediate.encodeU32 n
  | .distance x => Immediate.encodeS24 x

/-- What is read back. Of a distance it is the low 24 bits with their sign. -/
def value : Operand → Int
  | .byte b => b.toNat
  | .number n _ => n.toNat
  | .distance x => x.toInt.bmod (2 ^ 24)

theorem read_bytes (o : Operand) (before after : List UInt8) :
    o.form.read ⟨(before ++ o.bytes ++ after).toArray, before.length⟩ =
      .ok o.value ⟨(before ++ o.bytes ++ after).toArray, (before ++ o.bytes).length⟩ := by
  have htake {α : Type} {decode : Array UInt8 → Nat → Decoded α} {code : Array UInt8} {v : α} {n : Nat}
      (hd : decode code before.length = ⟨v, n, none⟩) :
      Cursor.take decode ⟨code, before.length⟩ = .ok v ⟨code, before.length + n⟩ := by
    simp only [Cursor.take, hd]
  have hmap {r : Cursor.Read Nat} {c c' : Cursor} {n : Nat} (hr : r c = .ok n c') :
      ((fun n : Nat => (n : Int)) <$> r) c = .ok (n : Int) c' := by
    simp only [Functor.map, EStateM.map, hr]
  rw [List.length_append]
  cases o with
  | byte b => exact hmap (htake (Immediate.u8At_byte b before after))
  | number n hn => exact hmap (htake (Immediate.u30At_encodeU32 hn before after))
  | distance x => exact htake (Immediate.s24At_encodeS24 x before after)

theorem mapM_read_bytes (os : List Operand) (before after : List UInt8) :
    (os.map form).mapM Form.read ⟨(before ++ os.flatMap bytes ++ after).toArray, before.length⟩ =
      .ok (os.map value) ⟨(before ++ os.flatMap bytes ++ after).toArray, (before ++ os.flatMap bytes).length⟩ := by
  induction os generalizing before with
  | nil => simp [pure, EStateM.pure]
  | cons o os ih =>
    have hfirst := o.read_bytes before (os.flatMap bytes ++ after)
    have hrest := ih (before ++ o.bytes)
    rw [List.map_cons, List.mapM_cons, List.flatMap_cons]
    simp only [← List.append_assoc] at hfirst hrest ⊢
    rw [bind_of_ok hfirst, bind_of_ok hrest]
    rfl

end Operand

/-- Immediates that were written one after another, whatever stands before and after them, are read back in
order, up to the place where the rest begins. A distance that fits into 24 bits comes back unchanged. All
numbers of 32 bits are read back by the reader that does not ask for small ones. -/
theorem read_written_immediates (before after : List UInt8) :
    (∀ os : List Operand,
      (os.map Operand.form).mapM Form.read ⟨(before ++ os.flatMap Operand.bytes ++ after).toArray, before.length⟩ =
        .ok (os.map Operand.value)
          ⟨(before ++ os.flatMap Operand.bytes ++ after).toArray, (before ++ os.flatMap Operand.bytes).length⟩) ∧
    (∀ x : Int32, -2 ^ 23 ≤ x.toInt → x.toInt < 2 ^ 23 → (Operand.distance x).value = x.toInt) ∧
    ∀ n : UInt32, Immediate.u32At (before ++ Immediate.encodeU32 n ++ after).toArray before.length =
      ⟨n.toNat, (Immediate.encodeU32 n).length, none⟩ := by
  refine ⟨fun os => Operand.mapM_read_bytes os before after, fun x hlow hhigh => ?_, fun n =>
    Immediate.u32At_encodeU32 n before after⟩
  exact Int.bmod_eq_of_le (by simpa using hlow) (by simpa using hhigh)

/-- A backward distance between two numbers. -/
theorem read_written_immediates_backward :
    ([Form.number, .distance, .byte].mapM Form.read ⟨#[7, 0x80, 0x01, 0xfe, 0xff, 0xff, 0x24, 9], 1⟩ =
      .ok [128, -2, 36] ⟨#[7, 0x80, 0x01, 0xfe, 0xff, 0xff, 0x24, 9], 7⟩) ∧
    (Operand.distance (-2)).value = -2 := by
  obtain ⟨hread, hvalue, -⟩ := read_written_immediates [7] [9]
  exact ⟨hread [.number 128 (by decide), .distance (-2), .byte 36], hvalue (-2) (by decide) (by decide)⟩

end MethodJit
