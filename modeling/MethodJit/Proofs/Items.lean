import MethodJit.Proofs.Lanes

/-!
# Routines on items

Compiled code applies some routines to numbers of which no object has been made. Applied to items that
stand for the same, a routine gives items that do, whether they are objects or numbers; only where one side
has a number the other side has one, too.
-/

namespace MethodJit

variable {K : Origin} {borrow : List Link} {pre P : Multiset Link} {t : Prop} {α β : Type} {h h' : Heap}
  {v w : Value} {n m : Int32} {x y x' y' : Item} {R : α → β → Multiset Link → Prop}

/-! ## Numbers and their objects -/

/-- The object of a number, which only the left side has. -/
theorem cleans_release_int : Cleans (heapBridge K) {Link.both (.object v) (.int n)} (release v) (pure ()) where
  both := by
    refine .of_bond fun G ψ ψ' P h h' hb _ => ?_
    have hbound : v ≠ .unbound := by
      rintro rfl
      have hagrees := hb.agrees (.both (.object .unbound) (.int n)) (by simp)
      exact hagrees.2 rfl
    obtain ⟨h₁, hok, habandoned, hb₁⟩ := hb.release_left rfl rfl hbound
    refine .inl ⟨(), (), h₁, h', hok, rfl, habandoned, rfl, 0, rfl, G, ψ, ψ', ?_⟩
    rwa [zero_add]
  left own h hl := Owns.release hl
  right own h hr := by
    refine ⟨h, rfl, ?_⟩
    rwa [rights_singleton, Link.rights, Item.refs, zero_add] at hr

theorem Linked.bound_int (hl : Linked K P h h') (hm : Link.both (.object v) (.int n) ∈ P) :
    v ≠ .unbound ∧ h.body? v = some (.int n) := by
  obtain ⟨G, ψ, ψ', A, hb, -⟩ := hl
  have hmem : Link.both (.object v) (.int n) ∈ pairLinks A + P := Multiset.mem_add.2 (.inr hm)
  obtain ⟨hsame, hbound⟩ := hb.agrees _ hmem
  have hlive : h.Live v := hb.left.live_of_sym (mem_lefts hmem (Multiset.mem_singleton_self v)) hbound
  exact ⟨hlive.ne_unbound, (hb.body_of_boxed hlive hsame).1⟩

theorem Linked.eq_of_ints (hl : Linked K P h h') (hm : Link.both (.int n) (.int m) ∈ P) : n = m := by
  obtain ⟨G, ψ, ψ', A, hb, -⟩ := hl
  obtain ⟨hsame, -⟩ := hb.agrees _ (Multiset.mem_add.2 (.inr hm))
  simpa [Item.sym] using hsame

/-- A number needs no owner. -/
theorem Linked.drop_ints (hl : Linked K ({Link.both (.int n) (.int m)} + P) h h') : Linked K P h h' := by
  obtain ⟨G, ψ, ψ', A, hb, hA, hA'⟩ := hl
  rw [add_left_comm] at hb
  refine ⟨G, ψ, ψ', A, ⟨?_, ?_, Bond.agrees_of_add hb.agrees, hb.size_left, hb.size_right, hb.names⟩, hA, hA'⟩
  · have hleft := hb.left
    rwa [lefts_add, lefts_singleton, Link.lefts, Item.refs, zero_add] at hleft
  · have hright := hb.right
    rwa [rights_add, rights_singleton, Link.rights, Item.refs, zero_add] at hright

/-- The number of an object is read on the left, where the right side has the number. -/
theorem twin_consuming_int {f : Int32 → HeapM α} {y : HeapM β}
    (hf : Twin (heapBridge K) (Link.both (.object v) (.int n) :: borrow) pre t (f n) y R) :
    Twin (heapBridge K) borrow ({Link.both (.object v) (.int n)} + pre) t (consuming v (wordOf v >>= f)) y R := by
  have hword : Twin (heapBridge K) ([Link.both (.object v) (.int n)] ++ borrow) pre t (wordOf v >>= f) y R := by
    intro keep h h' hkeep hj
    have hn := (Linked.bound_int hj (Multiset.mem_add.2 (.inr (hkeep _ List.mem_cons_self)))).2
    change Agree _ _ _ _ (f (h.toInt32 v) h) (y h')
    rw [Heap.toInt32_of_int hn]
    exact hf keep h h' hkeep hj
  intro keep h h' hkeep hj
  have hbound := (Linked.bound_int (v := v) (n := n) hj (by simp)).1
  rw [consuming, if_pos (isBound_of_ne hbound)]
  have hens := Twin.ensuring [Link.both (.object v) (.int n)] (heapBridge_plain K) hword cleans_release_int
    keep h h' hkeep hj
  have hright : ensuring y (pure ()) h' = y h' := by
    cases hy : y h' with
    | ok b h₁ => exact ensuring_of_ok hy
    | error e h₁ => exact ensuring_of_error hy
  rwa [hright] at hens

/-! ## Words -/

/-- Gives the word of an item to an action, and gives the item up afterwards. -/
def Item.withWord : Item → (Int32 → HeapM α) → HeapM α
  | .object v, f => consuming v (wordOf v >>= f)
  | .int n, f => f n

theorem twin_withWord (hfit : x.Fits y) {f : Int32 → HeapM α} {g : Int32 → HeapM β}
    (hfg : ∀ n, Twin (heapBridge K) borrow pre t (f n) (g n) R) :
    Twin (heapBridge K) borrow ({Link.both x y} + pre) t (x.withWord f) (y.withWord g) R := by
  have hborrowing (l : Link) (n : Int32) : Twin (heapBridge K) (l :: borrow) pre t (f n) (g n) R :=
    (hfg n).mono (fun _ hl => List.mem_cons_of_mem _ hl) id fun _ _ _ hR => hR
  cases x with
  | object v =>
    cases y with
    | object w =>
      have hwords : Reads K [Link.pair v w] (wordOf v) (wordOf w) := Reads.wordOf (by simp)
      exact twin_consuming (hwords.bind_twin (by simp) (hborrowing _))
    | int n => exact twin_consuming_int (hborrowing _ n)
  | int n =>
    cases y with
    | object w => cases hfit rfl
    | int m =>
      intro keep h h' hkeep hj
      rw [add_assoc] at hj
      obtain rfl : n = m := Linked.eq_of_ints hj (by simp)
      exact hfg n keep h h' hkeep (Linked.drop_ints hj)

/-- A new number, as an object if the item is one. -/
def Item.numberLike : Item → Int32 → HeapM Item
  | .object _, n => Item.object <$> newInt n
  | .int _, n => pure (.int n)

theorem twin_numberLike (hfit : x.Fits y) (n : Int32) :
    Twin (heapBridge K) borrow 0 t (x.numberLike n) (y.numberLike n) GivesItem := by
  cases x with
  | object v =>
    cases y with
    | object w => exact twin_object (twin_alloc rfl)
    | int m => exact twin_newInt_int n
  | int m =>
    cases y with
    | object w => cases hfit rfl
    | int m' => exact twin_int n

theorem map_consuming (f : α → β) (v : Value) (x : HeapM α) :
    f <$> consuming v x = consuming v (f <$> x) := by
  funext h
  unfold consuming
  split
  · simp only [Functor.map, EStateM.map, ensuring]
    cases x h with
    | ok a h₁ =>
      simp only
      cases release v h₁ <;> rfl
    | error e h₁ =>
      simp only
      cases release v h₁ <;> rfl
  · rfl

/-! ## One operand -/

/-- A routine on an item. Steps of numbers need no object. -/
def Unary.onItem (r : Unary) : Item → HeapM Item
  | .object v => Item.object <$> r.run v
  | .int n =>
    match r with
    | .convertI => pure (.int n)
    | .incrementI => pure (.int (n + 1))
    | .decrementI => pure (.int (n + (-1)))
    | _ => do Item.object <$> r.run (← newInt n)

/-- A routine that works on the word of an item. -/
theorem twin_onWordItem (hfit : x.Fits y) {r : Unary} {f : Int32 → Int32} (hobject : ∀ v, r.run v = onWord v f)
    (hint : ∀ n, r.onItem (.int n) = pure (.int (f n))) :
    Twin (heapBridge K) borrow {Link.both x y} t (r.onItem x) (r.onItem y) GivesItem := by
  have heq (z : Item) : r.onItem z = z.withWord fun n => z.numberLike (f n) := by
    cases z with
    | object v =>
      rw [Unary.onItem, hobject, onWord, map_consuming, map_bind]
      rfl
    | int n => exact hint n
  rw [heq, heq, ← add_zero {Link.both x y}]
  exact twin_withWord hfit fun n => twin_numberLike hfit (f n)

/-- A routine that needs an object. -/
theorem twin_onItem_boxed {r : Unary} (hint : ∀ n, r.onItem (.int n) = do Item.object <$> r.run (← newInt n)) :
    Twin (heapBridge K) borrow {Link.both x y} (r = .convertO) (r.onItem x) (r.onItem y) GivesItem := by
  have heq (z : Item) : r.onItem z = z.box >>= fun v => Item.object <$> r.run v := by
    cases z with
    | object v => rfl
    | int n => exact hint n
  rw [heq, heq]
  refine twin_boxItem.bind fun v w P hP => ?_
  rw [hP]
  exact twin_object (twin_unary r)

theorem twin_convertIItem (hfit : x.Fits y) :
    Twin (heapBridge K) borrow {Link.both x y} t (Unary.convertI.onItem x) (Unary.convertI.onItem y) GivesItem := by
  cases x with
  | object v =>
    cases y with
    | object w => exact twin_object twin_convertI
    | int n =>
      intro keep h h' _ hj
      have hbody := (Linked.bound_int (v := v) (n := n) hj (by simp)).2
      have hrun : Unary.convertI.onItem (.object v) h = .ok (.object v) h := by
        simp only [Unary.onItem, Unary.run, Functor.map, EStateM.map, get_bind, hbody]
        rfl
      rw [hrun]
      exact ⟨_, ⟨rfl, hfit⟩, hj⟩
  | int n =>
    cases y with
    | object w => cases hfit rfl
    | int m => exact Twin.pure ⟨rfl, hfit⟩

theorem Unary.twin_onItem (r : Unary) (hfit : x.Fits y) :
    Twin (heapBridge K) borrow {Link.both x y} (r = .convertO) (r.onItem x) (r.onItem y) GivesItem := by
  cases r with
  | convertI => exact twin_convertIItem hfit
  | incrementI => exact twin_onWordItem hfit (fun _ => rfl) fun _ => rfl
  | decrementI =>
    refine twin_onWordItem (f := (· + (-1))) hfit (fun v => ?_) fun _ => rfl
    simp only [Unary.run, Int32.sub_eq_add_neg]
  | _ => exact twin_onItem_boxed fun _ => rfl

/-! ## Two operands -/

/-- A routine on the objects of two items. -/
def Binary.onBoxed (r : Binary) (x y : Item) : HeapM Item := do
  let v ← x.box
  let w ← y.box
  Item.object <$> r.run v w

/-- The common bits of two items, as an object if both are. -/
def bitAndItems : Item → Item → HeapM Item
  | .object v, .object w => Item.object <$> Binary.bitAnd.run v w
  | .object v, .int m => Item.int <$> bitAndWord v m
  | .int n, .object w => Item.int <$> bitAndWord w n
  | .int n, .int m => pure (.int (n &&& m))

/-- A shift, of which the shifted item can be a number. -/
def Shift.onItems (s : Shift) (r : Binary) : Item → Item → HeapM Item
  | .object v, y => r.onBoxed (.object v) y
  | .int n, y => do Item.object <$> s.run n (← y.box)

/-- The sum of two items, as a number if both are. -/
def addItems : Item → Item → HeapM Item
  | .int n, .int m => pure (.int (n + m))
  | x, y => Binary.addI.onBoxed x y

def Binary.onItems (r : Binary) (x y : Item) : HeapM Item :=
  match r with
  | .bitAnd => bitAndItems x y
  | .lShift => Shift.left.onItems .lShift x y
  | .rShift => Shift.right.onItems .rShift x y
  | .uRShift => Shift.unsignedRight.onItems .uRShift x y
  | .addI => addItems x y
  | r => r.onBoxed x y

theorem Binary.twin_onBoxed (r : Binary) :
    Twin (heapBridge K) borrow ({Link.both x y} + {Link.both x' y'}) (r = .instanceOf) (r.onBoxed x x')
      (r.onBoxed y y') GivesItem := by
  refine twin_boxItem.bind_rest fun v w P hP => ?_
  rw [hP, add_comm]
  refine twin_boxItem.bind_rest fun v' w' P hP => ?_
  rw [hP, add_comm]
  exact twin_object (twin_binary r)

/-- Reading a word does not depend on what is given up afterwards. -/
theorem consuming_wordOf (v w : Value) (f : Int32 → HeapM α) :
    consuming w (wordOf v >>= f) = wordOf v >>= fun n => consuming w (f n) := by
  funext h
  unfold consuming
  simp only [bind, EStateM.bind, wordOf]
  split
  · rfl
  · rfl

/-- The words of two objects. -/
theorem consuming_words (v w : Value) (f : Int32 → Int32 → HeapM α) :
    consuming v (consuming w do f (← wordOf v) (← wordOf w)) =
      (Item.object v).withWord fun n => (Item.object w).withWord (f n) := by
  rw [consuming_wordOf]
  rfl

/-- An item that is an object if both items are. -/
def Item.either : Item → Item → Item
  | .object _, y => y
  | .int n, _ => .int n

theorem fits_either (hfit : x.Fits y) (hfit' : x'.Fits y') : (x.either x').Fits (y.either y') := by
  cases x <;> cases y <;> cases x' <;> cases y' <;> simp_all [Item.Fits, Item.either, Item.isInt]

theorem bitAndItems_eq (x y : Item) :
    bitAndItems x y = x.withWord fun n => y.withWord fun m => (x.either y).numberLike (n &&& m) := by
  cases x with
  | object v =>
    cases y with
    | object w =>
      rw [bitAndItems, Binary.run, onWords, map_consuming, map_consuming]
      simp only [map_bind]
      exact consuming_words v w fun n m => Item.object <$> newInt (n &&& m)
    | int m =>
      rw [bitAndItems, bitAndWord, map_consuming]
      simp only [map_bind, map_pure, Int32.and_comm m]
      rfl
  | int n =>
    cases y with
    | object w =>
      rw [bitAndItems, bitAndWord, map_consuming]
      simp only [map_bind, map_pure]
      rfl
    | int m => rfl

theorem twin_bitAndItems (hfit : x.Fits y) (hfit' : x'.Fits y') :
    Twin (heapBridge K) borrow ({Link.both x y} + {Link.both x' y'}) t (bitAndItems x x') (bitAndItems y y')
      GivesItem := by
  rw [bitAndItems_eq, bitAndItems_eq]
  refine twin_withWord hfit fun n => ?_
  rw [← add_zero {Link.both x' y'}]
  exact twin_withWord hfit' fun m => twin_numberLike (fits_either hfit hfit') _

/-- An object is made of an item whose counterpart stays a number. -/
theorem twin_box_int : Twin (heapBridge K) borrow {Link.both x (.int n)} t x.box (pure (Item.int n)) fun v z P =>
    z = .int n ∧ P = {Link.both (.object v) (.int n)} := by
  refine .of_bond fun G ψ ψ' P h h' hb _ => ?_
  cases x with
  | object v => exact .inl ⟨v, _, h, h', rfl, rfl, rfl, rfl, _, ⟨rfl, rfl⟩, G, ψ, ψ', hb⟩
  | int m => exact .inl ⟨_, _, _, h', rfl, rfl, rfl, rfl, _, ⟨rfl, rfl⟩, G, _, ψ', hb.box_left⟩

/-- The sum of two objects whose counterparts are numbers. -/
theorem twin_addI_ints : Twin (heapBridge K) borrow ({Link.both x (.int n)} + {Link.both x' (.int m)}) t
    (Binary.addI.onBoxed x x') (pure (.int (n + m))) GivesItem := by
  have hsum : Twin (heapBridge K) borrow ({Link.both x (.int n)} + {Link.both x' (.int m)}) t
      (Binary.addI.onBoxed x x')
      (pure (Item.int n) >>= fun z => pure (Item.int m) >>= fun z' =>
        z.withWord fun n => z'.withWord fun m => pure (.int (n + m))) GivesItem := by
    refine twin_box_int.bind_rest fun v z P hP => ?_
    rw [hP.2, hP.1, add_comm]
    refine twin_box_int.bind_rest fun w z P hP => ?_
    rw [hP.2, hP.1, add_comm, Binary.run, onWords, map_consuming, map_consuming]
    simp only [map_bind]
    rw [consuming_words v w fun n m => Item.object <$> newInt (n + m)]
    have hfit (v : Value) (n : Int32) : (Item.object v).Fits (.int n) := fun h => by cases h
    refine twin_withWord (hfit v n) fun n => ?_
    rw [← add_zero {Link.both (.object w) (.int m)}]
    exact twin_withWord (hfit w m) fun m => twin_newInt_int (n + m)
  exact hsum

theorem twin_addItems (hfit : x.Fits y) (hfit' : x'.Fits y') :
    Twin (heapBridge K) borrow ({Link.both x y} + {Link.both x' y'}) t (addItems x x') (addItems y y')
      GivesItem := by
  have hboxed : Twin (heapBridge K) borrow ({Link.both x y} + {Link.both x' y'}) t (Binary.addI.onBoxed x x')
      (Binary.addI.onBoxed y y') GivesItem :=
    (Binary.twin_onBoxed .addI).mono (fun _ hl => hl) nofun fun _ _ _ hR => hR
  cases x with
  | object v =>
    cases y with
    | object w => exact hboxed
    | int n =>
      cases y' with
      | object w => exact hboxed
      | int m => exact twin_addI_ints
  | int a =>
    cases y with
    | object w => cases hfit rfl
    | int n =>
      cases x' with
      | object v =>
        cases y' with
        | object w => exact hboxed
        | int m => exact twin_addI_ints
      | int b =>
        cases y' with
        | object w => cases hfit' rfl
        | int m =>
          have hsum : Twin (heapBridge K) borrow
              ({Link.both (.int a) (.int n)} + ({Link.both (.int b) (.int m)} + 0)) t _ _ GivesItem :=
            twin_withWord hfit fun n => twin_withWord hfit' fun m => twin_numberLike hfit (n + m)
          rwa [add_zero] at hsum

theorem Shift.twin_onItems (s : Shift) {r : Binary} (hr : ∀ v w, r.run v w = consuming v do s.run (← wordOf v) w)
    (hfit : x.Fits y) :
    Twin (heapBridge K) borrow ({Link.both x y} + {Link.both x' y'}) (r = .instanceOf) (s.onItems r x x')
      (s.onItems r y y') GivesItem := by
  cases x with
  | object v =>
    cases y with
    | object w => exact Binary.twin_onBoxed r
    | int n =>
      rw [add_comm]
      refine twin_boxItem.bind_rest fun v' w' P hP => ?_
      rw [hP, add_comm, hr, map_consuming]
      simp only [map_bind]
      exact twin_consuming_int (twin_object (twin_shift s n))
  | int n =>
    cases y with
    | object w => cases hfit rfl
    | int m =>
      intro keep h h' hkeep hj
      rw [add_assoc] at hj
      obtain rfl : n = m := Linked.eq_of_ints hj (by simp)
      have hshift : Twin (heapBridge K) borrow {Link.both x' y'} (r = .instanceOf) (s.onItems r (.int n) x')
          (s.onItems r (.int n) y') GivesItem := by
        refine twin_boxItem.bind fun v w P hP => ?_
        rw [hP]
        exact twin_object (twin_shift s n)
      exact hshift keep h h' hkeep (Linked.drop_ints hj)

/-- A routine on two items gives items that stand for the same. -/
theorem Binary.twin_onItems (r : Binary) (hfit : x.Fits y) (hfit' : x'.Fits y') :
    Twin (heapBridge K) borrow ({Link.both x y} + {Link.both x' y'}) (r = .instanceOf) (r.onItems x x')
      (r.onItems y y') GivesItem := by
  cases r with
  | bitAnd => exact twin_bitAndItems hfit hfit'
  | lShift => exact Shift.twin_onItems .left (fun _ _ => rfl) hfit
  | rShift => exact Shift.twin_onItems .right (fun _ _ => rfl) hfit
  | uRShift => exact Shift.twin_onItems .unsignedRight (fun _ _ => rfl) hfit
  | addI => exact twin_addItems hfit hfit'
  | _ => exact Binary.twin_onBoxed _

end MethodJit
