import MethodJit.Double.Narrow

/-!
# Data items

The items of the concise binary object representation (CBOR), and the reading of well-formed ones. Text
is kept as bytes, as not all of it has to be valid. Items can be nested to a limited depth, and arrays
and maps have a limited size.
-/

namespace MethodJit.Cbor

inductive Item
  | uint (n : Nat)
  /-- The number `-1 - n`. -/
  | negative (n : Nat)
  | bytes (chunks : List (List UInt8))
  | text (chunks : List (List UInt8))
  | array (items : List Item)
  | map (entries : List (Item × Item))
  | tag (n : Nat) (content : Item)
  | simple (n : Nat)
  | float (x : Double)

inductive Fault
  /-- The input ends inside an item. -/
  | truncated
  | malformed
deriving DecidableEq, Repr

def maxLevels : Nat := 32
def maxElements : Nat := 0x100000
def maxPairs : Nat := 0x20000

/-- How an item starts: its major type, the further bits of its first byte, and its argument. -/
structure Head where
  major : Nat
  info : Nat
  argument : Nat
deriving DecidableEq, Repr

/-- Whether the length of the item is open. -/
def Head.isOpen (h : Head) : Bool := h.info = 31

/-- The number that bytes stand for, the most significant one first. -/
def bigEndian (bs : List UInt8) : Nat := bs.foldl (fun n b => 256 * n + b.toNat) 0

/-- The first `n` bytes and the rest. -/
def takeBytes (n : Nat) (bs : List UInt8) : Except Fault (List UInt8 × List UInt8) :=
  let first := bs.take n
  if first.length = n then .ok (first, bs.drop n) else .error .truncated

/-- The number of bytes that the argument takes, if the further bits allow for one. -/
def argumentSize? (info : Nat) : Option Nat :=
  if info < 24 then some 0
  else match info with
    | 24 => some 1
    | 25 => some 2
    | 26 => some 4
    | 27 => some 8
    | _ => none

def readHead : List UInt8 → Except Fault (Head × List UInt8)
  | [] => .error .truncated
  | b :: bs => do
    let major := b.toNat / 32
    let info := b.toNat % 32
    match argumentSize? info with
    | none =>
      if info = 31 ∧ 2 ≤ major ∧ major ≤ 5 then pure (⟨major, info, 0⟩, bs) else throw .malformed
    | some size =>
      let (argument, rest) ← takeBytes size bs
      let n := if size = 0 then info else bigEndian argument
      if major = 7 ∧ size = 1 ∧ n < 32 then throw .malformed
      pure (⟨major, info, n⟩, rest)

abbrev Reader := List UInt8 → Except Fault (Item × List UInt8)

/-- A given number of items. -/
def readItems (read : Reader) : Nat → List UInt8 → Except Fault (List Item × List UInt8)
  | 0, bs => .ok ([], bs)
  | n + 1, bs => do
    let (item, bs) ← read bs
    let (items, bs) ← readItems read n bs
    pure (item :: items, bs)

/-- Items up to a break, fewer than `limit`. -/
def readOpenItems (read : Reader) : Nat → List UInt8 → Except Fault (List Item × List UInt8)
  | 0, _ => .error .malformed
  | limit + 1, bs =>
    match bs with
    | [] => .error .truncated
    | 0xff :: bs => .ok ([], bs)
    | bs => do
      let (item, bs) ← read bs
      let (items, bs) ← readOpenItems read limit bs
      pure (item :: items, bs)

/-- The chunks of a string of a major type up to a break. There is a chunk less than `fuel`. -/
def readChunks (major : Nat) : Nat → List UInt8 → Except Fault (List (List UInt8) × List UInt8)
  | 0, _ => .error .truncated
  | fuel + 1, bs =>
    match bs with
    | [] => .error .truncated
    | 0xff :: bs => .ok ([], bs)
    | b :: bs => do
      if b.toNat / 32 ≠ major ∨ b.toNat % 32 = 31 then throw .malformed
      let (h, bs) ← readHead (b :: bs)
      let (chunk, bs) ← takeBytes h.argument bs
      let (chunks, bs) ← readChunks major fuel bs
      pure (chunk :: chunks, bs)

/-- The chunks of a string: a single one if its length is given. -/
def readString (h : Head) (bs : List UInt8) : Except Fault (List (List UInt8) × List UInt8) :=
  if h.isOpen then readChunks h.major (bs.length + 1) bs
  else do
    let (chunk, bs) ← takeBytes h.argument bs
    pure ([chunk], bs)

/-- Numbers of tags in front of an item, and the levels that are left. Every tag after the first one takes
a level. -/
def readTags : Nat → List UInt8 → Except Fault (List Nat × Nat × List UInt8)
  | levels, [] => .ok ([], levels, [])
  | levels, b :: bs =>
    if b.toNat / 32 ≠ 6 then .ok ([], levels, b :: bs)
    else do
      let (h, bs) ← readHead (b :: bs)
      match bs with
      | [] => throw .truncated
      | c :: cs =>
        if c.toNat / 32 ≠ 6 then pure ([h.argument], levels, c :: cs)
        else match levels with
          | 0 => throw .malformed
          | levels + 1 => do
            let (tags, levels, bs) ← readTags levels (c :: cs)
            pure (h.argument :: tags, levels, bs)

/-- Items in pairs. -/
def pairUp : List Item → Except Fault (List (Item × Item))
  | [] => .ok []
  | [_] => .error .malformed
  | k :: v :: rest => do pure ((k, v) :: (← pairUp rest))

/-- The items of an array or map of which a head was read, at most `limit` of them. -/
def readContents (read : Reader) (h : Head) (limit : Nat) (bs : List UInt8) :
    Except Fault (List Item × List UInt8) :=
  if h.isOpen then readOpenItems read (limit + 1) bs
  else
    let n := if h.major = 5 then 2 * h.argument else h.argument
    if limit < n then .error .malformed else readItems read n bs

/-- A floating-point number or a simple value. -/
def simpleOf (h : Head) : Item :=
  match h.info with
  | 25 => .float (Double.half.widen h.argument)
  | 26 => .float (Double.single.widen h.argument)
  | 27 => .float ⟨.ofNat h.argument⟩
  | _ => .simple h.argument

/-- An item that is nested in at most `levels` arrays and maps. One more than that is enough fuel. -/
def readItem : Nat → Nat → Reader
  | 0, _, _ => .error .malformed
  | fuel + 1, levels, bs => do
    let (tags, levels, bs) ← readTags levels bs
    let (h, bs) ← readHead bs
    let (item, bs) ← match h.major with
      | 0 => pure (Item.uint h.argument, bs)
      | 1 => pure (.negative h.argument, bs)
      | 2 => do
        let (chunks, bs) ← readString h bs
        pure (.bytes chunks, bs)
      | 3 => do
        let (chunks, bs) ← readString h bs
        pure (.text chunks, bs)
      | 4 =>
        if levels = 0 then throw .malformed
        else do
          let (items, bs) ← readContents (readItem fuel (levels - 1)) h maxElements bs
          pure (.array items, bs)
      | 5 =>
        if levels = 0 then throw .malformed
        else do
          let (items, bs) ← readContents (readItem fuel (levels - 1)) h (2 * maxPairs) bs
          pure (.map (← pairUp items), bs)
      | _ => pure (simpleOf h, bs)
    pure (tags.foldr Item.tag item, bs)

/-- A well-formed item and the rest of the input. -/
def read (bs : List UInt8) : Except Fault (Item × List UInt8) := readItem (maxLevels + 1) maxLevels bs

end MethodJit.Cbor
