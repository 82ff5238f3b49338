import Mathlib.Data.List.Nodup
import MethodJit.Method.Descriptor
import MethodJit.Proofs.WrittenItems

/-!
# Stored methods are read back

A valid method is read back from its descriptor as it was, up to the choice of a NaN, and so are methods
that are stored one after another.
-/

namespace MethodJit

open Cbor

/-! ## Text -/

theorem toList_loop (bs : ByteArray) (i : Nat) (r : List UInt8) :
    ByteArray.toList.loop bs i r = r.reverse ++ bs.data.toList.drop i := by
  fun_induction ByteArray.toList.loop bs i r with
  | case1 i r h ih =>
    have hi : i < bs.data.toList.length := h
    have hget : bs.get! i = bs.data.toList[i] := by
      rw [Array.getElem_toList]
      exact getElem!_pos bs.data i h
    rw [ih, List.reverse_cons, List.append_assoc, List.drop_eq_getElem_cons hi, hget]
    rfl
  | case2 i r h =>
    have hi : bs.data.toList.length ≤ i := Nat.not_lt.1 h
    rw [List.drop_eq_nil_of_le hi, List.append_nil]

theorem toList_toUTF8 (s : String) : s.toUTF8.toList = s.toUTF8.data.toList := by
  simp [ByteArray.toList, toList_loop]

theorem textOfChunks?_toUTF8 (s : String) : textOfChunks? [s.toUTF8.toList] = some s := by
  have hbytes : (⟨s.toUTF8.toList.toArray⟩ : ByteArray) = s.toUTF8 := by rw [toList_toUTF8]
  have htext : String.fromUTF8? s.toUTF8 = some s := dif_pos s.isValidUTF8
  have hjoin : String.join [s] = s := by simp [String.join]
  rw [textOfChunks?, List.mapM_cons, hbytes, htext]
  exact congrArg some hjoin

/-! ## Single items -/

theorem content?_intItem {n : Int} (h : -2 ^ 63 ≤ n) : (intItem n).content? = some (.number n) := by
  unfold intItem
  split
  · have hlt : (-1 - n).toNat < 0x8000000000000000 := by omega
    have heq : (-1 - ((-1 - n).toNat : Int)) = n := by omega
    simp only [Item.content?, hlt, if_true, heq]
  · have heq : (n.toNat : Int) = n := by omega
    simp only [Item.content?, heq]

theorem int?_intItem {n low high : Int} (h : -2 ^ 63 ≤ n) (hrange : low ≤ n ∧ n ≤ high) :
    (intItem n).int? low high = some n := by
  simp only [Item.int?, content?_intItem h, hrange, and_self, if_true]

/-- The item of a text. -/
def textItem (s : String) : Item := .text [s.toUTF8.toList]

theorem text?_textItem (s : String) : (textItem s).text? = some s := by
  simp only [Item.text?, textItem, Item.content?, textOfChunks?_toUTF8, Option.map_some]

theorem mapM_map_eq_some {α β γ : Type} {f : α → β} {g : β → Option γ} {h : α → γ} {xs : List α}
    (H : ∀ x ∈ xs, g (f x) = some (h x)) : (xs.map f).mapM g = some (xs.map h) := by
  induction xs with
  | nil => rfl
  | cons x xs ih =>
    rw [List.map_cons, List.mapM_cons, H x List.mem_cons_self,
      ih fun y hy => H y (List.mem_cons_of_mem _ hy)]
    rfl

theorem list?_array {α β : Type} {f : α → Item} {elem : Item → Option β} {h : α → β} {xs : Array α}
    (H : ∀ x ∈ xs, elem (f x) = some (h x)) :
    Item.list? elem (.array (xs.toList.map f)) = some (xs.map h) := by
  have hmap : (xs.toList.map f).mapM elem = some (xs.toList.map h) :=
    mapM_map_eq_some fun x hx => H x (Array.mem_toList_iff.1 hx)
  simp only [Item.list?, Item.content?, hmap, Option.map_some]
  rw [← Array.toList_map, Array.toArray_toList]

theorem list?_array_self {α : Type} {f : α → Item} {elem : Item → Option α} {xs : Array α}
    (H : ∀ x, elem (f x) = some x) : Item.list? elem (.array (xs.toList.map f)) = some xs := by
  rw [list?_array (h := id) fun x _ => H x, Array.map_id]

/-! ## Entries -/

theorem distinctKeys_iff (ks : List Key) : distinctKeys ks = true ↔ ks.Nodup := by
  induction ks with
  | nil => simp [distinctKeys]
  | cons k ks ih => simp [distinctKeys, ih]

/-- Entries under small numbers. -/
def keyed (its : List (Nat × Item)) : List (Key × Item) := its.map fun e => (.number (.ofNat e.1), e.2)

theorem ofNat_inj {n k : Nat} (hn : n < 24) (hk : k < 24) : Int64.ofNat n = Int64.ofNat k ↔ n = k := by
  constructor
  · intro h
    have := congrArg Int64.toInt h
    rw [Int64.toInt_ofNat_of_lt (by omega), Int64.toInt_ofNat_of_lt (by omega)] at this
    exact Int.ofNat_inj.1 this
  · rintro rfl
    rfl

theorem entries?_map {its : List (Nat × Item)} (hkeys : ∀ e ∈ its, e.1 < 24)
    (hnodup : (its.map Prod.fst).Nodup) :
    (Item.map (its.map fun e => (.uint e.1, e.2))).entries? = some (keyed its) := by
  have hmap : (its.map fun e => (Item.uint e.1, e.2)).mapM
      (fun e => e.1.key?.map fun k => (k, e.2)) = some (keyed its) :=
    mapM_map_eq_some fun _ _ => rfl
  have hdistinct : distinctKeys ((keyed its).map Prod.fst) = true := by
    rw [distinctKeys_iff, keyed, List.map_map]
    have hcomp : its.map (Prod.fst ∘ fun e => (Key.number (.ofNat e.1), e.2)) =
        (its.map Prod.fst).map fun n => Key.number (.ofNat n) := by simp
    rw [hcomp]
    refine List.Nodup.map_on (fun n hn k hk heq => ?_) hnodup
    obtain ⟨e, he, rfl⟩ := List.mem_map.1 hn
    obtain ⟨e', he', rfl⟩ := List.mem_map.1 hk
    exact (ofNat_inj (hkeys e he) (hkeys e' he')).1 (Key.number.inj heq)
  simp only [Item.entries?, Item.content?, hmap, bind, Option.bind, hdistinct, if_true]

theorem fieldOf_keyed {α : Type} {its : List (Nat × Item)} (hkeys : ∀ e ∈ its, e.1 < 24) {n : Nat}
    (hn : n < 24) (absent : α) (read : Item → Option α) :
    fieldOf (keyed its) n absent read =
      ((its.find? fun e => e.1 = n).map fun e => read e.2).getD (some absent) := by
  have hfind : (keyed its).find? (fun e => e.1 = .number (.ofNat n) || e.1 = .name (toString n)) =
      (its.find? fun e => e.1 = n).map fun e => (.number (.ofNat e.1), e.2) := by
    induction its with
    | nil => rfl
    | cons e its ih =>
      have hiff := ofNat_inj (hkeys e List.mem_cons_self) hn
      have ih := ih fun e' he' => hkeys e' (List.mem_cons_of_mem _ he')
      by_cases he : e.1 = n
      · simp [keyed, he]
      · have hne : ¬ Int64.ofNat e.1 = Int64.ofNat n := fun h => he (hiff.1 h)
        simpa [keyed, List.find?_cons, he, hne] using ih
  rw [fieldOf, hfind]
  cases its.find? fun e => e.1 = n <;> rfl

/-! ## Pools -/

/-- The text has a length of 64 bits, as every text in memory does. -/
def Writable (s : String) : Prop := s.utf8ByteSize < 2 ^ 64

/-- What a pool that can be stored must satisfy: no list has more elements than an array can have. -/
structure Pool.Storable (p : Pool) : Prop where
  ints : p.ints.size ≤ maxElements
  uints : p.uints.size ≤ maxElements
  doubles : p.doubles.size ≤ maxElements
  strings : p.strings.size ≤ maxElements
  names : p.names.size ≤ maxElements
  texts : ∀ s ∈ p.strings, Writable s
  nameTexts : ∀ s ∈ p.names, Writable s

/-- The pool with all NaNs alike. -/
def Pool.canonical (p : Pool) : Pool := { p with doubles := p.doubles.map Double.canonical }

/-- The item of a name. -/
def nameItem (s : String) : Item := .map [(.uint 1, textItem s)]

/-- The lists of a pool under their keys: how their elements are written and as what they are read. -/
def Pool.lists (p : Pool) : List (Nat × List (List UInt8) × List Item) := [
  (1, p.ints.toList.map fun n => writeInt n.toInt, p.ints.toList.map fun n => intItem n.toInt),
  (2, p.uints.toList.map fun n => writeInt n.toNat, p.uints.toList.map fun n => intItem n.toNat),
  (3, p.doubles.toList.map writeDouble, p.doubles.toList.map fun x => .float x.canonical),
  (4, p.strings.toList.map writeText, p.strings.toList.map textItem),
  (5, p.names.toList.map fun name => writeMap [(1, writeText name)], p.names.toList.map nameItem)]

/-- The lists that are stored. -/
def Pool.stored (p : Pool) : List (Nat × List (List UInt8) × List Item) :=
  p.lists.filter fun l => !l.2.1.isEmpty

def Pool.items (p : Pool) : List (Nat × Item) := p.stored.map fun l => (l.1, .array l.2.2)

theorem Pool.encode_eq (p : Pool) :
    p.encode = writeMap (p.stored.map fun l => (l.1, writeArray l.2.1)) := by
  have hlists : p.encode = writeMap (((p.lists.map fun l => (l.1, l.2.1)).filter
      fun l => !l.2.isEmpty).map fun l => (l.1, writeArray l.2)) := rfl
  rw [hlists, List.filter_map, List.map_map]
  rfl

theorem Writable.readAs {s : String} (h : Writable s) : ReadAs (writeText s) (textItem s) 0 := by
  refine readAs_writeText ?_
  rw [toList_toUTF8, Array.length_toList]
  exact h

theorem readAs_name {s : String} (h : Writable s) :
    ReadAs (writeMap [(1, writeText s)]) (nameItem s) 1 :=
  readAs_writeMap (.cons (b := (1, textItem s)) ⟨rfl, by omega, h.readAs⟩ .nil)
    (by simp [maxPairs])

/-- Elements that are written alike are read alike. -/
theorem forall₂_map {α : Type} {xs : Array α} {f : α → List UInt8} {g : α → Item} {d : Nat}
    (h : ∀ x ∈ xs, ReadAs (f x) (g x) d) :
    List.Forall₂ (fun bs item => ReadAs bs item d) (xs.toList.map f) (xs.toList.map g) := by
  rw [List.forall₂_map_left_iff, List.forall₂_map_right_iff, List.forall₂_same]
  exact fun x hx => h x (Array.mem_toList_iff.1 hx)

theorem Pool.Storable.lists {p : Pool} (h : p.Storable) :
    ∀ l ∈ p.lists, l.1 < 24 ∧ ReadAs (writeArray l.2.1) (.array l.2.2) 2 := by
  have hint (n : Int32) : ReadAs (writeInt n.toInt) (intItem n.toInt) 0 :=
    readAs_writeInt (by have := n.le_toInt; omega) (by have := n.toInt_lt; omega)
  have huint (n : UInt32) : ReadAs (writeInt n.toNat) (intItem n.toNat) 0 :=
    readAs_writeInt (by omega) (by have := n.toNat_lt; omega)
  intro l hl
  simp only [Pool.lists, List.mem_cons, List.not_mem_nil, or_false] at hl
  rcases hl with rfl | rfl | rfl | rfl | rfl
  · exact ⟨by omega, (readAs_writeArray (forall₂_map fun n _ => hint n) (by simpa using h.ints)).mono
      (by omega)⟩
  · exact ⟨by omega, (readAs_writeArray (forall₂_map fun n _ => huint n) (by simpa using h.uints)).mono
      (by omega)⟩
  · exact ⟨by omega, (readAs_writeArray (forall₂_map fun x _ => readAs_writeDouble x)
      (by simpa using h.doubles)).mono (by omega)⟩
  · exact ⟨by omega, (readAs_writeArray (forall₂_map fun s hs => (h.texts s hs).readAs)
      (by simpa using h.strings)).mono (by omega)⟩
  · exact ⟨by omega, readAs_writeArray (forall₂_map fun s hs => readAs_name (h.nameTexts s hs))
      (by simpa using h.names)⟩

theorem Pool.Storable.readAs {p : Pool} (h : p.Storable) :
    ReadAs p.encode (.map (p.items.map fun e => (.uint e.1, e.2))) 3 := by
  rw [Pool.encode_eq]
  refine readAs_writeMap ?_ ?_
  · rw [Pool.items, List.forall₂_map_left_iff, List.forall₂_map_right_iff, List.forall₂_same]
    exact fun l hl => ⟨rfl, h.lists l (List.mem_of_mem_filter hl)⟩
  · have hle : p.stored.length ≤ p.lists.length := List.length_filter_le ..
    rw [List.length_map]
    exact Nat.le_trans hle (show 5 ≤ maxPairs by decide)

theorem Pool.keys_items (p : Pool) : (∀ e ∈ p.items, e.1 < 24) ∧ (p.items.map Prod.fst).Nodup := by
  have hsub : (p.items.map Prod.fst).Sublist (p.lists.map Prod.fst) := by
    rw [Pool.items, List.map_map]
    exact (List.filter_sublist (l := p.lists)).map Prod.fst
  have hkeys : p.lists.map Prod.fst = [1, 2, 3, 4, 5] := rfl
  rw [hkeys] at hsub
  refine ⟨fun e he => ?_, hsub.nodup (by decide)⟩
  have hmem := hsub.subset (List.mem_map_of_mem (f := Prod.fst) he)
  simp only [List.mem_cons, List.not_mem_nil, or_false] at hmem
  omega

theorem find?_and {α : Type} {L : List α} {q r : α → Bool} {x : α}
    (huniq : ∀ y ∈ L, q y = true → y = x) (hfind : L.find? q = some x) :
    L.find? (fun a => decide (r a = true ∧ q a = true)) = if r x then some x else none := by
  have heq : ∀ a ∈ L, decide (r a = true ∧ q a = true) = (r x && q a) := by
    intro a ha
    by_cases hq : q a = true
    · simp [huniq a ha hq]
    · simp [hq]
  have hcongr : L.find? (fun a => decide (r a = true ∧ q a = true)) = L.find? fun a => r x && q a := by
    clear huniq hfind
    induction L with
    | nil => rfl
    | cons a L ih =>
      rw [List.find?_cons, List.find?_cons, heq a List.mem_cons_self,
        ih fun b hb => heq b (List.mem_cons_of_mem _ hb)]
  rw [hcongr]
  cases r x with
  | true => simpa using hfind
  | false => simp

/-- A list that is not empty is found under its key; another one is not missed. -/
theorem Pool.field {p : Pool} {α : Type} {k : Nat} {items : List (List UInt8)} {its : List Item}
    (hk : k < 24) (hlist : p.lists.find? (fun l => l.1 = k) = some (k, items, its))
    {read : Item → Option (Array α)} {xs : Array α} (hread : read (.array its) = some xs)
    (hempty : items = [] → xs = #[]) : fieldOf (keyed p.items) k #[] read = some xs := by
  have hnodup : (p.lists.map Prod.fst).Nodup := show [1, 2, 3, 4, 5].Nodup by decide
  have hmem := List.mem_of_find?_eq_some hlist
  have hfind : p.stored.find? (fun l => l.1 = k) =
      if !items.isEmpty then some (k, items, its) else none := by
    rw [Pool.stored, List.find?_filter]
    refine find?_and (fun y hy hyk => ?_) hlist
    exact List.inj_on_of_nodup_map hnodup hy hmem (by simpa using hyk)
  have hitems : p.items.find? (fun e => e.1 = k) =
      (p.stored.find? fun l => l.1 = k).map fun l => (l.1, .array l.2.2) := by
    rw [Pool.items, List.find?_map]
    rfl
  rw [fieldOf_keyed p.keys_items.1 hk, hitems, hfind]
  cases items with
  | nil =>
    rw [hempty rfl]
    rfl
  | cons b bs => exact hread

theorem name_nameItem (s : String) :
    (do fieldOf (← (nameItem s).entries?) 1 "" Item.text?) = some s := by
  have hkeys : ∀ e ∈ [(1, textItem s)], e.1 < 24 := by simp
  have hentries : (nameItem s).entries? = some (keyed [(1, textItem s)]) :=
    entries?_map hkeys (List.nodup_singleton _)
  rw [hentries]
  change fieldOf (keyed [(1, textItem s)]) 1 "" Item.text? = some s
  rw [fieldOf_keyed hkeys (by omega)]
  exact text?_textItem s

theorem Pool.pool?_items (p : Pool) :
    (Item.map (p.items.map fun e => (.uint e.1, e.2))).pool? = some p.canonical := by
  have hnil {α β : Type} {xs : Array α} {f : α → β} (h : xs.toList.map f = []) : xs = #[] := by
    simpa using h
  have hints : fieldOf (keyed p.items) 1 #[] (Item.list? fun i =>
      (i.int? (-0x80000000) 0x7fffffff).map Int32.ofInt) = some p.ints := by
    refine Pool.field (by omega) rfl (list?_array_self fun n => ?_) hnil
    have hlow := n.le_toInt
    have hhigh := n.toInt_lt
    rw [int?_intItem (by omega) (by omega), Option.map_some, Int32.ofInt_toInt]
  have huints : fieldOf (keyed p.items) 2 #[] (Item.list? fun i =>
      (i.int? 0 0xffffffff).map UInt32.ofInt) = some p.uints := by
    refine Pool.field (by omega) rfl (list?_array_self fun n => ?_) hnil
    have hhigh := n.toNat_lt
    rw [int?_intItem (by omega) (by omega), Option.map_some, UInt32.ofInt,
      Int.emod_eq_of_lt (by omega) (by omega), Int.toNat_natCast, UInt32.ofNat_toNat]
  have hdoubles : fieldOf (keyed p.items) 3 #[] (Item.list? Item.double?) =
      some (p.doubles.map Double.canonical) := by
    refine Pool.field (by omega) rfl (list?_array fun _ _ => rfl) fun h => ?_
    rw [hnil h, Array.map_empty]
  have hstrings : fieldOf (keyed p.items) 4 #[] (Item.list? Item.text?) = some p.strings :=
    Pool.field (by omega) rfl (list?_array_self text?_textItem) hnil
  have hnames : fieldOf (keyed p.items) 5 #[] (Item.list? fun i =>
      (do fieldOf (← i.entries?) 1 "" Item.text?)) = some p.names :=
    Pool.field (by omega) rfl (list?_array_self name_nameItem) hnil
  obtain ⟨hkeys, hnodup⟩ := p.keys_items
  simp only [bind, Option.bind] at hnames
  simp only [Item.pool?, entries?_map hkeys hnodup, bind, Option.bind, hints, huints, hdoubles, hstrings,
    hnames, Pool.canonical]

/-! ## Methods -/

/-- What a method that can be stored must satisfy: it is valid, and its texts, its code and its lists
have lengths that can be written. -/
structure Method.Storable (m : Method) : Prop where
  valid : m.problem? = none
  name : Writable m.name
  code : m.bytes.size < 2 ^ 64
  pool : ∀ p, m.pool = some p → p.Storable

/-- The method with all NaNs of its pool alike. -/
def Method.canonical (m : Method) : Method := { m with pool := m.pool.map Pool.canonical }

def codeItem (code : Option (Array UInt8)) : Item :=
  (code.map fun c => .bytes [c.toList]).getD (.simple 22)

/-- What a method is read as, under the keys. -/
def Method.items (m : Method) : List (Nat × Item) :=
  [(1, textItem m.name), (2, intItem m.params.toInt), (3, intItem m.flags.bits.toNat),
    (4, intItem m.maxStack.toInt), (5, intItem m.locals.toInt), (6, codeItem m.code)] ++
  m.pool.toList.map fun p => (7, .map (p.items.map fun e => (.uint e.1, e.2)))

theorem readAs_code {m : Method} (h : m.bytes.size < 2 ^ 64) :
    ReadAs ((m.code.map fun c => writeBytes c.toList).getD writeNull) (codeItem m.code) 0 := by
  unfold Method.bytes at h
  cases hcode : m.code with
  | none => exact readAs_writeNull
  | some c =>
    rw [hcode] at h
    exact readAs_writeBytes (by simpa using h)

theorem Method.Storable.readAs {m : Method} (h : m.Storable) :
    ReadAs m.encode (.map (m.items.map fun e => (.uint e.1, e.2))) 4 := by
  have hint (n : Int64) : ReadAs (writeInt n.toInt) (intItem n.toInt) 3 :=
    (readAs_writeInt n.le_toInt n.toInt_lt).mono (by omega)
  have hflags : ReadAs (writeInt m.flags.bits.toNat) (intItem m.flags.bits.toNat) 3 :=
    (readAs_writeInt (by omega) (by have := m.flags.bits.toNat_lt; omega)).mono (by omega)
  have hpool : List.Forall₂ (fun e i => e.1 = i.1 ∧ e.1 < 24 ∧ ReadAs e.2 i.2 3)
      (m.pool.toList.map fun p => (7, p.encode))
      (m.pool.toList.map fun p => (7, Item.map (p.items.map fun e => (.uint e.1, e.2)))) := by
    rw [List.forall₂_map_left_iff, List.forall₂_map_right_iff, List.forall₂_same]
    exact fun p hp => ⟨rfl, by omega, (h.pool p (Option.mem_toList.1 hp)).readAs⟩
  refine readAs_writeMap ?_ ?_
  · exact .cons ⟨rfl, by omega, h.name.readAs.mono (by omega)⟩ <|
      .cons ⟨rfl, by omega, hint _⟩ <| .cons ⟨rfl, by omega, hflags⟩ <|
      .cons ⟨rfl, by omega, hint _⟩ <| .cons ⟨rfl, by omega, hint _⟩ <|
      .cons ⟨rfl, by omega, (readAs_code h.code).mono (by omega)⟩ hpool
  · cases m.pool <;> simp [maxPairs]

theorem Method.method?_items (m : Method) :
    (Item.map (m.items.map fun e => (.uint e.1, e.2))).method? = some m.canonical := by
  have hkeys : ∀ e ∈ m.items, e.1 < 24 := by
    cases hpool : m.pool <;> simp [Method.items, hpool]
  have hnodup : (m.items.map Prod.fst).Nodup := by
    cases hpool : m.pool <;> simp [Method.items, hpool]
  have hfield {α : Type} {k : Nat} {item : Item} (hk : k < 24) {absent : α} {read : Item → Option α} {x : α}
      (hfind : m.items.find? (fun e => e.1 = k) = some (k, item)) (hread : read item = some x) :
      fieldOf (keyed m.items) k absent read = some x := by
    rw [fieldOf_keyed hkeys hk, hfind]
    exact hread
  have hint (n : Int64) : (intItem n.toInt).int64? = some n := by
    have hlow := n.le_toInt
    have hhigh := n.toInt_lt
    rw [Item.int64?, int?_intItem (by omega) (by omega), Option.map_some, Int64.ofInt_toInt]
  have hname : fieldOf (keyed m.items) 1 "" Item.text? = some m.name :=
    hfield (by omega) rfl (text?_textItem _)
  have hparams : fieldOf (keyed m.items) 2 0 Item.int64? = some m.params :=
    hfield (by omega) rfl (hint _)
  have hflags : fieldOf (keyed m.items) 3 0 (fun i => (i.int? 0 255).map UInt8.ofInt) =
      some m.flags.bits := by
    refine hfield (by omega) rfl ?_
    have hhigh := m.flags.bits.toNat_lt
    rw [int?_intItem (by omega) (by omega), Option.map_some, UInt8.ofInt,
      Int.emod_eq_of_lt (by omega) (by omega), Int.toNat_natCast, UInt8.ofNat_toNat]
  have hstack : fieldOf (keyed m.items) 4 0 Item.int64? = some m.maxStack :=
    hfield (by omega) rfl (hint _)
  have hlocals : fieldOf (keyed m.items) 5 0 Item.int64? = some m.locals :=
    hfield (by omega) rfl (hint _)
  have hcode : fieldOf (keyed m.items) 6 none Item.code? = some m.code := by
    refine hfield (by omega) rfl ?_
    cases m.code with
    | none => rfl
    | some c => simp [codeItem, Item.code?, Item.content?]
  have hpool : fieldOf (keyed m.items) 7 none Item.optionalPool? = some (m.pool.map Pool.canonical) := by
    cases hpool : m.pool with
    | none =>
      rw [fieldOf_keyed hkeys (by omega)]
      simp [Method.items, hpool]
    | some p =>
      have hitem : m.items.find? (fun e => e.1 = 7) =
          some (7, .map (p.items.map fun e => (.uint e.1, e.2))) := by simp [Method.items, hpool]
      exact hfield (by omega) hitem (congrArg (Option.map some) p.pool?_items)
  simp only [Item.method?, entries?_map hkeys hnodup, bind, Option.bind, hname, hparams, hflags, hstack,
    hlocals, hcode, hpool, Method.canonical]

theorem Method.Storable.ofItem {m : Method} (h : m.Storable) :
    Method.ofItem (.map (m.items.map fun e => (.uint e.1, e.2))) = .ok m.canonical := by
  have hvalid : m.canonical.problem? = none := h.valid
  simp only [Method.ofItem, m.method?_items, hvalid]

theorem Method.Storable.read_append {m : Method} (h : m.Storable) (rest : List UInt8) :
    Cbor.read (m.encode ++ rest) = .ok (.map (m.items.map fun e => (.uint e.1, e.2)), rest) :=
  h.readAs _ _ rest (by decide) (by decide)

theorem writeMap_ne_nil (entries : List (Nat × List UInt8)) : writeMap entries ≠ [] := by
  obtain ⟨info, -, bs, hbs⟩ := writeHead_cons 5 entries.length
  simp [writeMap, hbs]

theorem Method.encode_ne_nil (m : Method) : m.encode ≠ [] := writeMap_ne_nil _

theorem length_le_flatMap_encode (ms : List Method) : ms.length ≤ (ms.flatMap Method.encode).length := by
  induction ms with
  | nil => exact Nat.le_refl _
  | cons m ms ih =>
    have hpos := List.length_pos_iff.2 m.encode_ne_nil
    rw [List.length_cons, List.flatMap_cons, List.length_append]
    omega

theorem decodeFrom_encode {ms : List Method} (h : ∀ m ∈ ms, m.Storable) {fuel : Nat}
    (hfuel : ms.length < fuel) :
    Method.decodeFrom fuel (ms.flatMap Method.encode) = .ok (ms.map Method.canonical) := by
  induction ms generalizing fuel with
  | nil =>
    obtain ⟨fuel, rfl⟩ : ∃ k, fuel = k + 1 := ⟨fuel - 1, by omega⟩
    rfl
  | cons m ms ih =>
    rw [List.length_cons] at hfuel
    obtain ⟨fuel, rfl⟩ : ∃ k, fuel = k + 1 := ⟨fuel - 1, by omega⟩
    have hm := h m List.mem_cons_self
    have ih := ih (fun m' hm' => h m' (List.mem_cons_of_mem _ hm')) (show ms.length < fuel by omega)
    have hne : (m.encode ++ ms.flatMap Method.encode).isEmpty = false := by
      simp [m.encode_ne_nil]
    simp only [List.flatMap_cons, Method.decodeFrom, hne, Bool.false_eq_true, if_false, hm.read_append,
      hm.ofItem, ih, bind, Except.bind, pure, Except.pure, List.map_cons]

/-- Methods that are stored one after another are read back in order, and each of them by itself. Nothing
but the choice of a NaN is lost. -/
theorem decode_encode (ms : List Method) (h : ∀ m ∈ ms, m.Storable) :
    Method.decodeAll (ms.flatMap Method.encode) = .ok (ms.map Method.canonical) ∧
      ∀ m ∈ ms, Method.decode m.encode = .ok m.canonical := by
  constructor
  · exact decodeFrom_encode h (Nat.lt_succ_of_le (length_le_flatMap_encode ms))
  · intro m hm
    have hread := (h m hm).read_append []
    rw [List.append_nil] at hread
    simp only [Method.decode, hread, (h m hm).ofItem]

/-- Code that is empty next to code that is absent, and numbers of which one is a NaN. -/
theorem decode_encode_pool :
    let m : Method := { name := "é", locals := 1, code := some #[] }
    let m' : Method := { m with
      code := none
      pool := some { ints := #[-1], doubles := #[⟨0x7ff0000000000001⟩, ⟨0x8000000000000000⟩] } }
    Method.decodeAll (m.encode ++ m'.encode) = .ok [m, { m' with
      pool := some { ints := #[-1], doubles := #[.nan, ⟨0x8000000000000000⟩] } }] := by
  have hname : Writable "é" := show "é".utf8ByteSize < 2 ^ 64 by decide
  have hnan : Double.canonical ⟨0x7ff0000000000001⟩ = .nan := by decide
  have hzero : Double.canonical ⟨0x8000000000000000⟩ = ⟨0x8000000000000000⟩ := by decide
  have hm : Method.Storable { name := "é", locals := 1, code := some #[] } :=
    ⟨by decide, hname, by decide, nofun⟩
  have hm' : Method.Storable { name := "é", locals := 1, pool := some {
      ints := #[-1], doubles := #[⟨0x7ff0000000000001⟩, ⟨0x8000000000000000⟩] } } := by
    refine ⟨by decide, hname, by decide, ?_⟩
    rintro p ⟨⟩
    exact ⟨by decide, by decide, by decide, by decide, by decide, nofun, nofun⟩
  have hdecode := (decode_encode [_, _] (by simpa using ⟨hm, hm'⟩)).1
  simpa [Method.canonical, Pool.canonical, hnan, hzero] using hdecode

end MethodJit
