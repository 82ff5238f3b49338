import MethodJit.Compiler.BlockMap

/-!
# Block maps as ordered finite maps

The items of a block map ascend, so that there is at most one block at an offset and a search from the
start meets the least offset first. `Holds` says which blocks a map holds: each of them is found, and of a
range the least offset that has one.

A request for the block at an offset comes with an action that creates it. Of a sequence of requests only
those act that are the first at their offsets, in their order and each once.
-/

namespace MethodJit.Compiler.BlockMap

open IR

variable {m : BlockMap} {made old : List (Int × BlockId)} {offset : Int} {id : BlockId}

/-! ## Lookup -/

theorem find?_insertItem (offset offset' : Int) (id : BlockId) (items : List (Int × BlockId)) :
    (insertItem offset id items).find? (fun x => x.1 = offset') =
      if offset' = offset then some (offset, id) else items.find? fun x => x.1 = offset' := by
  induction items with
  | nil => by_cases h : offset' = offset <;> simp [insertItem, h, eq_comm]
  | cons x xs ih =>
    unfold insertItem
    by_cases hlt : offset < x.1
    · by_cases h : offset' = offset <;> simp [hlt, h, List.find?_cons, eq_comm]
    · by_cases heq : offset = x.1
      · subst heq
        by_cases h : offset' = x.1 <;> simp [h, eq_comm]
      · simp only [hlt, heq, if_false, List.find?_cons, ih]
        by_cases h : offset' = offset
        · subst h
          simp [Ne.symm heq]
        · simp [h]

theorem get?_insert (m : BlockMap) (offset offset' : Int) (id : BlockId) :
    (m.insert offset id).get? offset' = if offset' = offset then some id else m.get? offset' := by
  simp only [get?, insert, find?_insertItem]
  split <;> rfl

/-- There is at most one item at an offset. -/
theorem Ascending.eq_of_fst {items : List (Int × BlockId)} (h : Ascending items) {x y : Int × BlockId}
    (hx : x ∈ items) (hy : y ∈ items) (heq : x.1 = y.1) : x = y := by
  induction items with
  | nil => cases hx
  | cons z zs ih =>
    obtain ⟨hz, hzs⟩ := List.pairwise_cons.1 h
    rcases List.mem_cons.1 hx with rfl | hx'
    · rcases List.mem_cons.1 hy with rfl | hy'
      · rfl
      · exact absurd heq (Int.ne_of_lt (hz y hy'))
    · rcases List.mem_cons.1 hy with rfl | hy'
      · exact absurd heq.symm (Int.ne_of_lt (hz x hx'))
      · exact ih hzs hx' hy'

theorem get?_eq_some_iff : m.get? offset = some id ↔ (offset, id) ∈ m.items := by
  constructor
  · intro h
    obtain ⟨x, hx, rfl⟩ := Option.map_eq_some_iff.1 h
    have hoffset : x.1 = offset := by simpa using List.find?_some hx
    exact hoffset ▸ List.mem_of_find?_eq_some hx
  · intro h
    cases hfind : m.items.find? fun x => x.1 = offset with
    | none => simpa using List.find?_eq_none.1 hfind _ h
    | some x =>
      have hoffset : x.1 = offset := by simpa using List.find?_some hfind
      have heq := m.ascending.eq_of_fst (List.mem_of_find?_eq_some hfind) h hoffset
      rw [get?, hfind, heq]
      rfl

theorem get?_eq_none_iff : m.get? offset = none ↔ offset ∉ m.items.map Prod.fst := by
  rw [Option.eq_none_iff_forall_ne_some]
  constructor
  · intro h hmem
    obtain ⟨⟨_, id⟩, hx, rfl⟩ := List.mem_map.1 hmem
    exact h id (get?_eq_some_iff.2 hx)
  · intro h id hid
    exact h (List.mem_map_of_mem (get?_eq_some_iff.1 hid))

/-! ## Ranges -/

theorem within?_eq_none_iff {first last : Int} : m.within? first last = none ↔
    ∀ offset ∈ m.items.map Prod.fst, ¬ (first ≤ offset ∧ offset < last) := by
  simp [within?, -not_and]

/-- A range without blocks. -/
theorem not_mem_of_within?_eq_none {first last : Int} (h : m.within? first last = none)
    (hget : m.get? offset = some id) : ¬ (first ≤ offset ∧ offset < last) :=
  within?_eq_none_iff.1 h offset (List.mem_map_of_mem (get?_eq_some_iff.1 hget))

/-- The offset is the least of some in a range. -/
def LeastWithin (offsets : List Int) (first last offset : Int) : Prop :=
  (offset ∈ offsets ∧ first ≤ offset ∧ offset < last) ∧
    ∀ other ∈ offsets, first ≤ other ∧ other < last → offset ≤ other

theorem LeastWithin.eq {offsets : List Int} {first last offset' : Int}
    (h : LeastWithin offsets first last offset) (h' : LeastWithin offsets first last offset') :
    offset = offset' :=
  Int.le_antisymm (h.2 offset' h'.1.1 h'.1.2) (h'.2 offset h.1.1 h.1.2)

/-- The items before the one that is found are not in the range, and those after it have larger offsets. -/
theorem leastWithin_of_within? {first last : Int} (h : m.within? first last = some offset) :
    LeastWithin (m.items.map Prod.fst) first last offset := by
  obtain ⟨x, hx, rfl⟩ := Option.map_eq_some_iff.1 h
  obtain ⟨hin, before, after, hitems, hbefore⟩ := List.find?_eq_some_iff_append.1 hx
  have hin : first ≤ x.1 ∧ x.1 < last := by simpa using hin
  refine ⟨⟨List.mem_map_of_mem (List.mem_of_find?_eq_some hx), hin⟩, fun other hother hrange => ?_⟩
  obtain ⟨y, hy, rfl⟩ := List.mem_map.1 hother
  have hascending := m.ascending
  rw [hitems] at hy hascending
  rcases List.mem_append.1 hy with hy | hy
  · have hout := hbefore y hy
    simp [hrange.1, hrange.2] at hout
  · rcases List.mem_cons.1 hy with rfl | hy
    · exact Int.le_refl _
    · have htail := (List.pairwise_append.1 hascending).2.1
      exact Int.le_of_lt ((List.pairwise_cons.1 htail).1 y hy)

theorem within?_eq_some_iff {first last : Int} : m.within? first last = some offset ↔
    LeastWithin (m.items.map Prod.fst) first last offset := by
  refine ⟨leastWithin_of_within?, fun h => ?_⟩
  cases hwithin : m.within? first last with
  | none => exact absurd h.1.2 (within?_eq_none_iff.1 hwithin offset h.1.1)
  | some offset' => rw [(leastWithin_of_within? hwithin).eq h]

/-! ## What a map holds -/

/-- The map holds the blocks that were made at offsets, and no others. -/
structure Holds (m : BlockMap) (made : List (Int × BlockId)) : Prop where
  found : ∀ offset id, m.get? offset = some id ↔ (offset, id) ∈ made
  missing : ∀ offset, m.get? offset = none ↔ offset ∉ made.map Prod.fst
  least : ∀ first last offset,
    m.within? first last = some offset ↔ LeastWithin (made.map Prod.fst) first last offset
  vacant : ∀ first last, m.within? first last = none ↔
    ∀ offset ∈ made.map Prod.fst, ¬ (first ≤ offset ∧ offset < last)

theorem holds_of_mem_iff (h : ∀ x, x ∈ m.items ↔ x ∈ made) : m.Holds made := by
  have hmap (offset : Int) : offset ∈ m.items.map Prod.fst ↔ offset ∈ made.map Prod.fst := by
    simp only [List.mem_map, h]
  refine ⟨fun offset id => get?_eq_some_iff.trans (h _), fun offset => ?_, fun first last offset => ?_,
    fun first last => ?_⟩
  · rw [get?_eq_none_iff, hmap]
  · simp only [within?_eq_some_iff, LeastWithin, hmap]
  · simp only [within?_eq_none_iff, hmap]

theorem Holds.insert (h : m.Holds made) (hnew : offset ∉ made.map Prod.fst) (id : BlockId) :
    (m.insert offset id).Holds (made ++ [(offset, id)]) := by
  refine holds_of_mem_iff fun x => ?_
  rw [← get?_eq_some_iff, get?_insert, List.mem_append, List.mem_singleton]
  split
  case isTrue heq =>
    have hout : x ∉ made := fun hx => hnew (heq ▸ List.mem_map_of_mem hx)
    simp [hout, Prod.ext_iff, heq, eq_comm]
  case isFalse hne =>
    have hout : x ≠ (offset, id) := fun hx => hne (congrArg Prod.fst hx)
    rw [h.found]
    exact (or_iff_left hout).symm

/-! ## Requests -/

section Requests

variable {M : Type → Type} [Monad M]

/-- Requests for the blocks at offsets, one after another. Each comes with an action that creates the
block. -/
def requests (m : BlockMap) : List (Int × M BlockId) → M (List Reply)
  | [] => pure []
  | call :: calls => do
    let r ← m.getOrCreate call.1 call.2
    let rs ← r.map.requests calls
    pure (r :: rs)

/-- The calls that are the first at their offsets, where some offsets have been seen before. -/
def firsts {α : Type} (seen : List Int) : List (Int × α) → List (Int × α)
  | [] => []
  | call :: calls =>
    if call.1 ∈ seen then firsts seen calls else call :: firsts (seen ++ [call.1]) calls

/-- Creates the blocks of calls, one after another. -/
def creations (calls : List (Int × M BlockId)) : M (List (Int × BlockId)) :=
  calls.mapM fun call => do pure (call.1, ← call.2)

/-- The replies to requests for the blocks at offsets. There were `old` blocks, and further ones were made
as listed. -/
structure Answered (old : List (Int × BlockId)) (offsets : List Int) (made : List (Int × BlockId))
    (replies : List Reply) : Prop where
  length : replies.length = offsets.length
  /-- A block is created at the first request for its offset. -/
  created : ∀ (i : Nat) offset r, offsets[i]? = some offset → replies[i]? = some r →
    (r.created = true ↔ offset ∉ old.map Prod.fst ++ offsets.take i)
  /-- After each request the map holds what was made at the offsets so far, and the reply is from there. -/
  holds : ∀ (i : Nat) offset r, offsets[i]? = some offset → replies[i]? = some r →
    r.map.Holds (old ++ made.filter fun x => x.1 ∈ offsets.take (i + 1)) ∧
      r.map.get? offset = some r.id

theorem mem_firsts_iff {α : Type} {seen : List Int} {calls : List (Int × α)} :
    offset ∈ (firsts seen calls).map Prod.fst ↔ offset ∈ calls.map Prod.fst ∧ offset ∉ seen := by
  induction calls generalizing seen with
  | nil => simp [firsts]
  | cons call calls ih =>
    rw [List.map_cons, List.mem_cons]
    by_cases hseen : call.1 ∈ seen
    · rw [firsts, if_pos hseen, ih, or_and_right, or_iff_right]
      rintro ⟨rfl, hnot⟩
      exact hnot hseen
    · rw [firsts, if_neg hseen, List.map_cons, List.mem_cons, ih, List.mem_append, List.mem_singleton, not_or]
      by_cases heq : offset = call.1
      · simp [heq, hseen]
      · simp [heq]

theorem nodup_firsts {α : Type} (seen : List Int) (calls : List (Int × α)) :
    ((firsts seen calls).map Prod.fst).Nodup := by
  induction calls generalizing seen with
  | nil => exact List.nodup_nil
  | cons call calls ih =>
    unfold firsts
    split
    · exact ih seen
    · refine List.nodup_cons.2 ⟨fun h => ?_, ih _⟩
      exact (mem_firsts_iff.1 h).2 (List.mem_append_right _ List.mem_cons_self)

/-- A request for the block at an offset where none is made adds nothing to what is made so far. -/
theorem filter_take_cons (h : ∀ x ∈ made, x.1 ≠ offset) (offsets : List Int) (i : Nat) :
    (made.filter fun x => x.1 ∈ (offset :: offsets).take (i + 1)) =
      made.filter fun x => x.1 ∈ offsets.take i :=
  List.filter_congr fun x hx => by simp [h x hx]

theorem ne_of_mem_made {α : Type} {seen : List Int} {calls : List (Int × α)}
    (h : made.map Prod.fst = (firsts seen calls).map Prod.fst) (hseen : offset ∈ seen) :
    ∀ x ∈ made, x.1 ≠ offset := by
  rintro x hx rfl
  have hfirst : x.1 ∈ (firsts seen calls).map Prod.fst := h ▸ List.mem_map_of_mem hx
  exact (mem_firsts_iff.1 hfirst).2 hseen

theorem Answered.cons_old {offsets : List Int} {replies : List Reply} (h : Answered old offsets made replies)
    (hm : m.Holds old) (hid : (offset, id) ∈ old) (hmade : ∀ x ∈ made, x.1 ≠ offset) :
    Answered old (offset :: offsets) made (⟨id, false, m⟩ :: replies) := by
  have hold : offset ∈ old.map Prod.fst := List.mem_map_of_mem hid
  refine ⟨congrArg (· + 1) h.length, fun i offset' r hoffset hr => ?_, fun i offset' r hoffset hr => ?_⟩
  · cases i with
    | zero =>
      cases hoffset
      cases hr
      simpa using hold
    | succ i =>
      rw [h.created i offset' r hoffset hr, List.take_succ_cons, List.mem_append, List.mem_append,
        List.mem_cons]
      refine not_congr ⟨fun h => h.imp_right .inr, ?_⟩
      rintro (h | rfl | h)
      · exact .inl h
      · exact .inl hold
      · exact .inr h
  · rw [filter_take_cons hmade]
    cases i with
    | zero =>
      cases hoffset
      cases hr
      rw [List.take_zero, List.filter_eq_nil_iff.2 (by simp), List.append_nil]
      exact ⟨hm, (hm.found _ _).2 hid⟩
    | succ i => exact h.holds i offset' r hoffset hr

theorem Answered.cons_new {offsets : List Int} {replies : List Reply}
    (h : Answered (old ++ [(offset, id)]) offsets made replies) (hm : m.Holds (old ++ [(offset, id)]))
    (hnew : offset ∉ old.map Prod.fst) (hmade : ∀ x ∈ made, x.1 ≠ offset) :
    Answered old (offset :: offsets) ((offset, id) :: made) (⟨id, true, m⟩ :: replies) := by
  refine ⟨congrArg (· + 1) h.length, fun i offset' r hoffset hr => ?_, fun i offset' r hoffset hr => ?_⟩
  · cases i with
    | zero =>
      cases hoffset
      cases hr
      simpa using hnew
    | succ i =>
      rw [h.created i offset' r hoffset hr, List.map_append, List.append_assoc]
      rfl
  · rw [List.filter_cons_of_pos (by simp), filter_take_cons hmade, List.append_cons]
    cases i with
    | zero =>
      cases hoffset
      cases hr
      rw [List.take_zero, List.filter_eq_nil_iff.2 (by simp), List.append_nil]
      exact ⟨hm, (hm.found _ _).2 (List.mem_append_right _ List.mem_cons_self)⟩
    | succ i => exact h.holds i offset' r hoffset hr

theorem getOrCreate_of_some (h : m.get? offset = some id) (create : M BlockId) :
    m.getOrCreate offset create = pure ⟨id, false, m⟩ := by
  rw [getOrCreate, h]

theorem getOrCreate_of_none (h : m.get? offset = none) (create : M BlockId) :
    m.getOrCreate offset create = (do
      let id ← create
      pure ⟨id, true, m.insert offset id⟩) := by
  rw [getOrCreate, h]

theorem creations_cons [LawfulMonad M] (offset : Int) (create : M BlockId) (calls : List (Int × M BlockId)) :
    creations ((offset, create) :: calls) = (do
      let id ← create
      let made ← creations calls
      pure ((offset, id) :: made)) := by
  simp [creations]

/-- The requests act like the creations of the first calls, and what these make determines the replies. -/
theorem requests_answered [LawfulMonad M] (hm : m.Holds old) (calls : List (Int × M BlockId)) :
    ∃ replies : List (Int × BlockId) → List Reply,
      m.requests calls = replies <$> creations (firsts (old.map Prod.fst) calls) ∧
      ∀ made : List (Int × BlockId),
        made.map Prod.fst = (firsts (old.map Prod.fst) calls).map Prod.fst →
          Answered old (calls.map Prod.fst) made (replies made) := by
  induction calls generalizing m old with
  | nil => exact ⟨fun _ => [], by simp [requests, creations, firsts], fun _ _ => ⟨rfl, by simp, by simp⟩⟩
  | cons call calls ih =>
    obtain ⟨offset, create⟩ := call
    by_cases hmem : offset ∈ old.map Prod.fst
    · obtain ⟨⟨_, id⟩, hid, rfl⟩ := List.mem_map.1 hmem
      obtain ⟨replies, heq, hall⟩ := ih hm
      refine ⟨fun made => ⟨id, false, m⟩ :: replies made, ?_, fun made hmade => ?_⟩
      · rw [requests, getOrCreate_of_some ((hm.found _ _).2 hid), pure_bind, heq, firsts, if_pos hmem]
        simp
      · rw [firsts, if_pos hmem] at hmade
        exact (hall made hmade).cons_old hm hid (ne_of_mem_made hmade hmem)
    · -- The replies to the other requests depend on the block that is created for this one.
      obtain ⟨replies, hall⟩ := Classical.axiomOfChoice fun id => ih (hm.insert hmem id)
      simp only [List.map_append, List.map_cons, List.map_nil] at hall
      refine ⟨fun made => (made.head?.map fun x =>
        ⟨x.2, true, m.insert offset x.2⟩ :: replies x.2 made.tail).getD [], ?_, fun made hmade => ?_⟩
      · rw [requests, getOrCreate_of_none ((hm.missing offset).2 hmem), firsts, if_neg hmem, creations_cons]
        simp [hall]
      · rw [firsts, if_neg hmem, List.map_cons, List.map_eq_cons_iff] at hmade
        obtain ⟨⟨_, id⟩, made, rfl, rfl, hmade⟩ := hmade
        exact ((hall id).2 made hmade).cons_new (hm.insert hmem id) hmem
          (ne_of_mem_made hmade (List.mem_append_right _ List.mem_cons_self))

end Requests

end MethodJit.Compiler.BlockMap
