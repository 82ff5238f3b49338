import Mathlib.Algebra.Group.Int.Defs
import Mathlib.Algebra.Group.Nat.Defs
import Mathlib.Data.List.Forall2
import MethodJit.Cbor.Item
import MethodJit.Cbor.Writer

/-!
# Written items are read back

Every item that is written is read as that item, whatever follows it, if its length has 64 bits at most,
if it is not too large and if enough levels are left.
-/

namespace MethodJit

/-- The number itself, or the NaN that is written for all of them. -/
def Double.canonical (x : Double) : Double := if x.isNaN then .nan else x

namespace Cbor

variable {bs rest : List UInt8} {n major info size : Nat}

/-! ## Heads -/

theorem takeBytes_append (h : bs.length = n) (rest : List UInt8) :
    takeBytes n (bs ++ rest) = .ok (bs, rest) := by
  subst h
  simp [takeBytes]

theorem length_writeNumber (size n : Nat) : (writeNumber size n).length = size := by
  induction size generalizing n with
  | zero => rfl
  | succ size ih => simp [writeNumber, ih]

theorem bigEndian_snoc (bs : List UInt8) (b : UInt8) :
    bigEndian (bs ++ [b]) = 256 * bigEndian bs + b.toNat := by
  simp [bigEndian, List.foldl_append]

theorem bigEndian_writeNumber (h : n < 256 ^ size) : bigEndian (writeNumber size n) = n := by
  induction size generalizing n with
  | zero =>
    rw [Nat.pow_zero] at h
    simp only [writeNumber, bigEndian, List.foldl_nil]
    omega
  | succ size ih =>
    rw [Nat.pow_succ] at h
    have hbyte : (UInt8.ofNat n).toNat = n % 256 := UInt8.toNat_ofNat'
    rw [writeNumber, bigEndian_snoc, ih (by omega), hbyte]
    omega

/-- The first byte of an item. -/
theorem toNat_first (hmajor : major < 8) (hinfo : info < 32) :
    (UInt8.ofNat (32 * major + info)).toNat = 32 * major + info :=
  UInt8.toNat_ofNat_of_lt' (by change _ < 256; omega)

/-- An argument in the first byte. -/
theorem readHead_short (hmajor : major < 8) (hn : n < 24) :
    readHead (.ofNat (32 * major + n) :: rest) = .ok (⟨major, n, n⟩, rest) := by
  have hfirst : (UInt8.ofNat (32 * major + n)).toNat = 32 * major + n :=
    toNat_first hmajor (by omega)
  have hdiv : (32 * major + n) / 32 = major := by omega
  have hmod : (32 * major + n) % 32 = n := by omega
  have hsize : argumentSize? n = some 0 := if_pos hn
  have htake : takeBytes 0 rest = .ok ([], rest) := takeBytes_append List.length_nil rest
  have hno : ¬ (major = 7 ∧ 0 = 1 ∧ n < 32) := by omega
  simp only [readHead, hfirst, hdiv, hmod, hsize, htake, bind, Except.bind, if_true, hno, if_false,
    pure, Except.pure]

/-- An argument in bytes of its own. -/
theorem readHead_long (hmajor : major < 8) (hinfo : info < 32) (hsize : argumentSize? info = some size)
    (hpos : size ≠ 0) (hsimple : major = 7 → size ≠ 1) (hn : n < 256 ^ size) (rest : List UInt8) :
    readHead (.ofNat (32 * major + info) :: writeNumber size n ++ rest) =
      .ok (⟨major, info, n⟩, rest) := by
  have hfirst := toNat_first hmajor hinfo
  have hdiv : (32 * major + info) / 32 = major := by omega
  have hmod : (32 * major + info) % 32 = info := by omega
  have htake := takeBytes_append (length_writeNumber size n) rest
  have hno : ¬ (major = 7 ∧ size = 1 ∧ n < 32) := fun h => hsimple h.1 h.2.1
  simp only [List.cons_append, readHead, hfirst, hdiv, hmod, hsize, htake, bind, Except.bind, hpos,
    if_false, bigEndian_writeNumber hn, hno, pure, Except.pure]

/-- The head of an item other than a simple value. -/
theorem readHead_writeHead (hmajor : major < 7) (hn : n < 2 ^ 64) (rest : List UInt8) :
    ∃ info < 28, readHead (writeHead major n ++ rest) = .ok (⟨major, info, n⟩, rest) := by
  have hmajor' : major < 8 := by omega
  have hne (size : Nat) : major = 7 → size ≠ 1 := by omega
  unfold writeHead
  dsimp only
  split
  · rename_i h
    exact ⟨n, by omega, readHead_short hmajor' h⟩
  split
  · rename_i h
    exact ⟨24, by omega, readHead_long hmajor' (by omega) rfl (by omega) (hne _) h rest⟩
  split
  · rename_i h
    exact ⟨25, by omega, readHead_long hmajor' (by omega) rfl (by omega) (hne _) h rest⟩
  split
  · rename_i h
    exact ⟨26, by omega, readHead_long hmajor' (by omega) rfl (by omega) (hne _) h rest⟩
  · exact ⟨27, by omega, readHead_long hmajor' (by omega) rfl (by omega) (hne _) hn rest⟩

theorem writeHead_cons (major n : Nat) :
    ∃ info < 32, ∃ bs, writeHead major n = .ofNat (32 * major + info) :: bs := by
  unfold writeHead
  dsimp only
  split
  · exact ⟨n, by omega, _, rfl⟩
  split
  · exact ⟨24, by omega, _, rfl⟩
  split
  · exact ⟨25, by omega, _, rfl⟩
  split
  · exact ⟨26, by omega, _, rfl⟩
  · exact ⟨27, by omega, _, rfl⟩

/-! ## Items -/

theorem readTags_none {b : UInt8} (hb : b.toNat / 32 ≠ 6) (levels : Nat) (bs : List UInt8) :
    readTags levels (b :: bs) = .ok ([], levels, b :: bs) := by
  rw [readTags, if_pos hb]

theorem readTags_writeHead (hmajor : major < 6) (n levels : Nat) (rest : List UInt8) :
    readTags levels (writeHead major n ++ rest) = .ok ([], levels, writeHead major n ++ rest) := by
  obtain ⟨info, hinfo, bs, hbs⟩ := writeHead_cons major n
  rw [hbs]
  refine readTags_none ?_ levels _
  rw [toNat_first (by omega) hinfo]
  omega

/-- The bytes are read as the item if `depth` levels are left, and not more than the bytes. -/
def ReadAs (bs : List UInt8) (item : Item) (depth : Nat) : Prop :=
  ∀ fuel levels rest, depth < fuel → depth ≤ levels → readItem fuel levels (bs ++ rest) = .ok (item, rest)

theorem ReadAs.mono {item : Item} {d d' : Nat} (h : ReadAs bs item d) (hd : d ≤ d') : ReadAs bs item d' :=
  fun fuel levels rest hf hl => h fuel levels rest (by omega) (by omega)

/-- A whole number that is written with at most 64 bits. -/
def intItem (n : Int) : Item := if n < 0 then .negative (-1 - n).toNat else .uint n.toNat

theorem readAs_writeHead {item : Item} (hmajor : major < 2) (hn : n < 2 ^ 64)
    (hitem : item = if major = 0 then .uint n else .negative n) : ReadAs (writeHead major n) item 0 := by
  intro fuel levels rest hfuel _
  obtain ⟨fuel, rfl⟩ : ∃ k, fuel = k + 1 := ⟨fuel - 1, by omega⟩
  obtain ⟨info, -, hhead⟩ := readHead_writeHead (by omega : major < 7) hn rest
  have htags := readTags_writeHead (by omega : major < 6) n levels rest
  simp only [readItem, htags, bind, Except.bind, hhead]
  obtain rfl | rfl : major = 0 ∨ major = 1 := by omega
  · simp [hitem, pure, Except.pure]
  · simp [hitem, pure, Except.pure]

theorem readAs_writeInt {n : Int} (hlow : -2 ^ 63 ≤ n) (hhigh : n < 2 ^ 63) :
    ReadAs (writeInt n) (intItem n) 0 := by
  unfold writeInt intItem
  split
  · exact readAs_writeHead (by omega) (by omega) rfl
  · exact readAs_writeHead (by omega) (by omega) rfl

theorem readString_append {h : Head} (hinfo : h.info < 28) (hlen : bs.length = h.argument)
    (rest : List UInt8) : readString h (bs ++ rest) = .ok ([bs], rest) := by
  have hopen : h.isOpen = false := by
    simp only [Head.isOpen, decide_eq_false_iff_not]
    omega
  simp [readString, hopen, takeBytes_append hlen rest, bind, Except.bind, pure, Except.pure]

theorem readAs_writeBytes (hlen : bs.length < 2 ^ 64) : ReadAs (writeBytes bs) (.bytes [bs]) 0 := by
  intro fuel levels rest hfuel _
  obtain ⟨fuel, rfl⟩ : ∃ k, fuel = k + 1 := ⟨fuel - 1, by omega⟩
  obtain ⟨info, hinfo, hhead⟩ := readHead_writeHead (by omega : 2 < 7) hlen (bs ++ rest)
  have htags := readTags_writeHead (by omega : 2 < 6) bs.length levels (bs ++ rest)
  have hstring := readString_append (h := ⟨2, info, bs.length⟩) hinfo rfl rest
  simp only [writeBytes, List.append_assoc, readItem, htags, bind, Except.bind, hhead, hstring]
  rfl

theorem readAs_writeText {s : String} (hlen : s.toUTF8.toList.length < 2 ^ 64) :
    ReadAs (writeText s) (.text [s.toUTF8.toList]) 0 := by
  intro fuel levels rest hfuel _
  obtain ⟨fuel, rfl⟩ : ∃ k, fuel = k + 1 := ⟨fuel - 1, by omega⟩
  obtain ⟨info, hinfo, hhead⟩ := readHead_writeHead (by omega : 3 < 7) hlen (s.toUTF8.toList ++ rest)
  have htags := readTags_writeHead (by omega : 3 < 6) s.toUTF8.toList.length levels
    (s.toUTF8.toList ++ rest)
  have hstring := readString_append (h := ⟨3, info, s.toUTF8.toList.length⟩) hinfo rfl rest
  simp only [writeText, List.append_assoc, readItem, htags, bind, Except.bind, hhead, hstring]
  rfl

theorem readAs_writeNull : ReadAs writeNull (.simple 22) 0 := by
  intro fuel levels rest hfuel _
  obtain ⟨fuel, rfl⟩ : ∃ k, fuel = k + 1 := ⟨fuel - 1, by omega⟩
  have hhead : readHead (0xf6 :: rest) = .ok (⟨7, 22, 22⟩, rest) :=
    readHead_short (n := 22) (by omega : 7 < 8) (by omega)
  have htags := readTags_none (b := 0xf6) (by decide) levels rest
  simp only [writeNull, List.cons_append, List.nil_append, readItem, htags, bind, Except.bind, hhead]
  rfl

/-- A number in one of the three formats. -/
theorem readAs_float (info size : Nat) (hinfo : info < 32) (hsize : argumentSize? info = some size) (hpos : 1 < size)
    (hn : n < 256 ^ size) :
    ReadAs (.ofNat (32 * 7 + info) :: writeNumber size n) (simpleOf ⟨7, info, n⟩) 0 := by
  intro fuel levels rest hfuel _
  obtain ⟨fuel, rfl⟩ : ∃ k, fuel = k + 1 := ⟨fuel - 1, by omega⟩
  have hhead := readHead_long (by omega : 7 < 8) hinfo hsize (by omega) (by omega) hn rest
  have htags := readTags_none (b := .ofNat (32 * 7 + info))
    (by rw [toNat_first (by omega) hinfo]; omega) levels (writeNumber size n ++ rest)
  rw [List.cons_append] at hhead ⊢
  simp only [readItem, htags, bind, Except.bind, hhead]
  rfl

theorem readAs_writeDouble (x : Double) : ReadAs (writeDouble x) (.float x.canonical) 0 := by
  have hnarrow {f : Double.NarrowFormat} {n : Nat} (h : f.narrow? x = some n) :
      n < 2 * f.signUnit ∧ f.widen n = x := by
    simp only [Double.NarrowFormat.narrow?] at h
    split at h
    · cases h
      assumption
    · cases h
  by_cases hnan : x.isNaN = true
  · have hwiden : Double.half.widen 0x7e00 = .nan := by decide
    rw [writeDouble, if_pos hnan, Double.canonical, if_pos hnan, ← hwiden]
    exact readAs_float 25 2 (n := 0x7e00) (by omega) rfl (by omega) (by omega)
  · rw [writeDouble, if_neg hnan, Double.canonical, if_neg hnan]
    cases hhalf : Double.half.narrow? x with
    | some n =>
      obtain ⟨hlt, hx⟩ := hnarrow hhalf
      rw [← hx]
      exact readAs_float 25 2 (by omega) rfl (by omega) hlt
    | none =>
      cases hsingle : Double.single.narrow? x with
      | some n =>
        obtain ⟨hlt, hx⟩ := hnarrow hsingle
        rw [← hx]
        exact readAs_float 26 4 (by omega) rfl (by omega) hlt
      | none =>
        have hitem : Item.float x = simpleOf ⟨7, 27, x.bits.toNat⟩ := by
          simp only [simpleOf, UInt64.ofNat_toNat]
        rw [hitem]
        exact readAs_float 27 8 (by omega) rfl (by omega) x.bits.toNat_lt

/-! ## Arrays and maps -/

theorem readItems_flatten {items : List (List UInt8)} {its : List Item} {d fuel levels : Nat}
    (h : List.Forall₂ (fun bs item => ReadAs bs item d) items its) (hf : d < fuel) (hl : d ≤ levels)
    (rest : List UInt8) :
    readItems (readItem fuel levels) items.length (items.flatten ++ rest) = .ok (its, rest) := by
  induction h with
  | nil => rfl
  | @cons bs item items its hread _ ih =>
    have hfirst := hread fuel levels (items.flatten ++ rest) hf hl
    simp only [List.length_cons, List.flatten_cons, List.append_assoc, readItems, hfirst, bind,
      Except.bind, ih]
    rfl

theorem readContents_sized {read : Reader} {h : Head} (limit : Nat) (hinfo : h.info < 28)
    (hn : (if h.major = 5 then 2 * h.argument else h.argument) = n) (hlimit : n ≤ limit) :
    readContents read h limit bs = readItems read n bs := by
  have hopen : h.isOpen = false := by
    simp only [Head.isOpen, decide_eq_false_iff_not]
    omega
  simp only [readContents, hopen, Bool.false_eq_true, if_false, hn, Nat.not_lt.2 hlimit]

theorem readAs_writeArray {items : List (List UInt8)} {its : List Item} {d : Nat}
    (h : List.Forall₂ (fun bs item => ReadAs bs item d) items its) (hlen : items.length ≤ maxElements) :
    ReadAs (writeArray items) (.array its) (d + 1) := by
  intro fuel levels rest hfuel hlevels
  obtain ⟨fuel, rfl⟩ : ∃ k, fuel = k + 1 := ⟨fuel - 1, by omega⟩
  have hn : items.length < 2 ^ 64 := by
    unfold maxElements at hlen
    omega
  obtain ⟨info, hinfo, hhead⟩ := readHead_writeHead (by omega : 4 < 7) hn (items.flatten ++ rest)
  have htags := readTags_writeHead (by omega : 4 < 6) items.length levels (items.flatten ++ rest)
  have hitems : readItems (readItem fuel (levels - 1)) items.length (items.flatten ++ rest) =
      .ok (its, rest) := readItems_flatten h (by omega) (by omega) rest
  have hcontents := (readContents_sized (h := ⟨4, info, items.length⟩) maxElements hinfo rfl hlen).trans hitems
  have hlevel : levels ≠ 0 := by omega
  simp only [writeArray, List.append_assoc, readItem, htags, bind, Except.bind, hhead, hlevel, if_false,
    hcontents]
  rfl

/-- Keys and values in turn. -/
def interleave {α : Type} (key : Nat → α) (entries : List (Nat × α)) : List α :=
  entries.flatMap fun e => [key e.1, e.2]

theorem flatten_interleave (entries : List (Nat × List UInt8)) :
    (interleave (writeHead 0) entries).flatten =
      entries.flatMap fun (k, v) => writeHead 0 k ++ v := by
  induction entries with
  | nil => rfl
  | cons e entries ih =>
    have hcons : interleave (writeHead 0) (e :: entries) =
        writeHead 0 e.1 :: e.2 :: interleave (writeHead 0) entries := rfl
    simp only [hcons, List.flatten_cons, ih, List.flatMap_cons, List.append_assoc]

theorem pairUp_interleave (entries : List (Nat × Item)) :
    pairUp (interleave .uint entries) = .ok (entries.map fun e => (.uint e.1, e.2)) := by
  induction entries with
  | nil => rfl
  | cons e entries ih =>
    have hcons : interleave .uint (e :: entries) = .uint e.1 :: e.2 :: interleave .uint entries := rfl
    simp only [hcons, pairUp, ih, bind, Except.bind, pure, Except.pure, List.map_cons]

theorem readAs_writeMap {entries : List (Nat × List UInt8)} {its : List (Nat × Item)} {d : Nat}
    (h : List.Forall₂ (fun e i => e.1 = i.1 ∧ e.1 < 24 ∧ ReadAs e.2 i.2 d) entries its)
    (hlen : entries.length ≤ maxPairs) :
    ReadAs (writeMap entries) (.map (its.map fun e => (.uint e.1, e.2))) (d + 1) := by
  intro fuel levels rest hfuel hlevels
  obtain ⟨fuel, rfl⟩ : ∃ k, fuel = k + 1 := ⟨fuel - 1, by omega⟩
  have hforall : List.Forall₂ (fun bs item => ReadAs bs item d) (interleave (writeHead 0) entries)
      (interleave .uint its) := by
    induction h with
    | nil => exact .nil
    | cons he _ ih =>
      obtain ⟨hkey, hlt, hread⟩ := he
      refine .cons ?_ (.cons hread (ih (Nat.le_of_succ_le hlen)))
      exact (readAs_writeHead (by omega) (by omega) (by rw [hkey]; rfl)).mono (Nat.zero_le d)
  have hcount : (interleave (writeHead 0) entries).length = 2 * entries.length := by
    simp [interleave, List.length_flatMap, Nat.mul_comm]
  have hn : entries.length < 2 ^ 64 := by
    unfold maxPairs at hlen
    omega
  obtain ⟨info, hinfo, hhead⟩ := readHead_writeHead (by omega : 5 < 7) hn
    ((interleave (writeHead 0) entries).flatten ++ rest)
  have htags := readTags_writeHead (by omega : 5 < 6) entries.length levels
    ((interleave (writeHead 0) entries).flatten ++ rest)
  have hitems : readItems (readItem fuel (levels - 1)) (interleave (writeHead 0) entries).length
      ((interleave (writeHead 0) entries).flatten ++ rest) = .ok (interleave .uint its, rest) :=
    readItems_flatten hforall (by omega) (by omega) rest
  rw [hcount] at hitems
  have hcontents := (readContents_sized (h := ⟨5, info, entries.length⟩) (n := 2 * entries.length)
    (2 * maxPairs) hinfo rfl (by omega)).trans hitems
  have hlevel : levels ≠ 0 := by omega
  simp only [writeMap, ← flatten_interleave, List.append_assoc, readItem, htags, bind, Except.bind, hhead, hlevel,
    if_false, hcontents, pairUp_interleave]
  rfl

end Cbor

end MethodJit
