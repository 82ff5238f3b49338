import MethodJit.IR.Basic

/-!
# Block maps

A block map tells which block starts at an offset of the code. It is a list of offsets and blocks in
ascending order of the offsets.
-/

namespace MethodJit.Compiler

open IR

namespace BlockMap

/-- The offsets of the items ascend. -/
def Ascending (items : List (Int × BlockId)) : Prop := items.Pairwise fun x y => x.1 < y.1

/-- Puts a block at an offset among ascending items. -/
def insertItem (offset : Int) (id : BlockId) : List (Int × BlockId) → List (Int × BlockId)
  | [] => [(offset, id)]
  | x :: xs =>
    if offset < x.1 then (offset, id) :: x :: xs
    else if offset = x.1 then (offset, id) :: xs
    else x :: insertItem offset id xs

theorem mem_of_mem_insertItem {offset : Int} {id : BlockId} {items : List (Int × BlockId)}
    {x : Int × BlockId} (h : x ∈ insertItem offset id items) : x = (offset, id) ∨ x ∈ items := by
  induction items with
  | nil => exact .inl (List.mem_singleton.1 h)
  | cons y ys ih =>
    unfold insertItem at h
    split at h
    · exact List.mem_cons.1 h
    · split at h
      · exact (List.mem_cons.1 h).imp_right (List.mem_cons_of_mem y)
      · rcases List.mem_cons.1 h with rfl | h
        · exact .inr List.mem_cons_self
        · exact (ih h).imp_right (List.mem_cons_of_mem y)

theorem Ascending.insertItem {items : List (Int × BlockId)} (h : Ascending items) (offset : Int)
    (id : BlockId) : Ascending (insertItem offset id items) := by
  induction items with
  | nil => exact List.pairwise_singleton _ _
  | cons y ys ih =>
    obtain ⟨hy, hys⟩ := List.pairwise_cons.1 h
    unfold BlockMap.insertItem
    split
    case isTrue hlt =>
      refine List.pairwise_cons.2 ⟨fun x hx => ?_, h⟩
      rcases List.mem_cons.1 hx with rfl | hx
      · exact hlt
      · exact Int.lt_trans hlt (hy x hx)
    case isFalse hge =>
      split
      case isTrue heq => exact List.pairwise_cons.2 ⟨fun x hx => heq ▸ hy x hx, hys⟩
      case isFalse hne =>
        refine List.pairwise_cons.2 ⟨fun x hx => ?_, ih hys⟩
        rcases mem_of_mem_insertItem hx with rfl | hx
        · exact Int.lt_iff_le_and_ne.2 ⟨Int.not_lt.1 hge, fun h => hne h.symm⟩
        · exact hy x hx

end BlockMap

structure BlockMap where
  items : List (Int × BlockId) := []
  ascending : BlockMap.Ascending items := by exact .nil
deriving DecidableEq, Repr

namespace BlockMap

def size (m : BlockMap) : Nat := m.items.length

/-- The block at an offset. -/
def get? (m : BlockMap) (offset : Int) : Option BlockId :=
  (m.items.find? fun x => x.1 = offset).map Prod.snd

def insert (m : BlockMap) (offset : Int) (id : BlockId) : BlockMap :=
  ⟨insertItem offset id m.items, m.ascending.insertItem offset id⟩

/-- The reply to a request for the block at an offset. -/
structure Reply where
  id : BlockId
  /-- Whether the block was created for the request. -/
  created : Bool
  /-- The map after the request. -/
  map : BlockMap
deriving DecidableEq, Repr

/-- The block at an offset. If there is none yet, one is created and put there. -/
def getOrCreate {M : Type → Type} [Monad M] (m : BlockMap) (offset : Int) (create : M BlockId) :
    M Reply :=
  match m.get? offset with
  | some id => pure ⟨id, false, m⟩
  | none => do
    let id ← create
    pure ⟨id, true, m.insert offset id⟩

/-- The block at an offset, which is put there if there is none yet. -/
def getOrInsert (m : BlockMap) (offset : Int) (id : BlockId) : BlockId × BlockMap :=
  let r := Id.run (m.getOrCreate offset (pure id))
  (r.id, r.map)

/-- The least offset in a range that has a block. The end is not in the range. -/
def within? (m : BlockMap) (first last : Int) : Option Int :=
  (m.items.find? fun x => first ≤ x.1 && x.1 < last).map Prod.fst

end BlockMap

end MethodJit.Compiler
