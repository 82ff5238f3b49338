import MethodJit.Cbor.Item
import MethodJit.Cbor.Writer
import MethodJit.Method.Basic

/-!
# Method descriptors

A method is stored as a map whose keys are numbers. `Method.encode` writes a method; `Method.decode` reads
one, in any of the forms that an item can have, and checks it. Entries with other keys are passed over,
but no key may stand twice.
-/

namespace MethodJit

open Cbor

/-- Why a descriptor was refused. -/
inductive DescriptorFault
  | format (f : Cbor.Fault)
  | invalid (method : String) (problem : MethodProblem)
deriving DecidableEq, Repr

def DescriptorFault.message : DescriptorFault → String
  | .format .truncated => CodeFault.truncated.message
  | .format .malformed => "malformed descriptor"
  | .invalid method problem => problem.message method

namespace Pool

/-- The lists that are not empty, under their keys. -/
def encode (p : Pool) : List UInt8 :=
  let lists := [
    (1, p.ints.toList.map fun n => writeInt n.toInt),
    (2, p.uints.toList.map fun n => writeInt n.toNat),
    (3, p.doubles.toList.map writeDouble),
    (4, p.strings.toList.map writeText),
    (5, p.names.toList.map fun name => writeMap [(1, writeText name)])]
  writeMap ((lists.filter fun l => !l.2.isEmpty).map fun (k, items) => (k, writeArray items))

end Pool

def Method.encode (m : Method) : List UInt8 :=
  let pool := m.pool.toList.map fun p => (7, p.encode)
  writeMap ([
    (1, writeText m.name),
    (2, writeInt m.params.toInt),
    (3, writeInt m.flags.bits.toNat),
    (4, writeInt m.maxStack.toInt),
    (5, writeInt m.locals.toInt),
    (6, (m.code.map fun c => writeBytes c.toList).getD writeNull)] ++ pool)

namespace Cbor

/-- What an item means once its tags are taken into account. -/
inductive Content
  | number (n : Int)
  | bytes (bs : List UInt8)
  | text (s : String)
  /-- Bytes that stand for a number. -/
  | bigNumber (bs : List UInt8) (n : Int)
  | array (items : List Item)
  | map (entries : List (Item × Item))
  | bool (b : Bool)
  | null
  | float (x : Double)

/-- The text of valid chunks. -/
def textOfChunks? (chunks : List (List UInt8)) : Option String :=
  (chunks.mapM fun c => String.fromUTF8? ⟨c.toArray⟩).map String.join

/-- Whether an item can follow a tag whose meaning is known: a date has a text, a time has a number, and
a big number has bytes. -/
def tagAllows (tag : Nat) (content : Item) : Bool :=
  match tag, content with
  | 0, .text _ => true
  | 1, .uint _ | 1, .negative _ | 1, .float _ => true
  | 2, .bytes _ | 3, .bytes _ => true
  | n, _ => 3 < n

/-- What an item means, if its tags and its text are in order. -/
def Item.content? : Item → Option Content
  | .uint n => some (.number n)
  | .negative n => if n < 0x8000000000000000 then some (.number (-1 - n)) else none
  | .bytes chunks => some (.bytes chunks.flatten)
  | .text chunks => (textOfChunks? chunks).map .text
  | .array items => some (.array items)
  | .map entries => some (.map entries)
  | .simple n =>
    if n = 20 ∨ n = 21 then some (.bool (n = 21))
    else if n = 22 ∨ n = 23 then some .null
    else some (.number n)
  | .float x => some (.float x)
  | .tag n content =>
    if !tagAllows n content then none
    else match n, content with
      | 2, .bytes chunks => some (.bigNumber chunks.flatten (bigEndian chunks.flatten))
      | 3, .bytes chunks => some (.bigNumber chunks.flatten (-1 - bigEndian chunks.flatten))
      | _, content => content.content?

/-- A number in a range; null is zero. -/
def Item.int? (low high : Int) (i : Item) : Option Int :=
  match i.content? with
  | some .null => some 0
  | some (.number n) | some (.bigNumber _ n) => if low ≤ n ∧ n ≤ high then some n else none
  | _ => none

/-- A floating-point number; other numbers of up to 64 bits are rounded. -/
def Item.double? (i : Item) : Option Double :=
  match i.content? with
  | some .null => some (.zero false)
  | some (.float x) => some x
  | some (.number n) => some (.ofInt n)
  | some (.bigNumber _ n) =>
    if -0x8000000000000000 ≤ n ∧ n < 0x10000000000000000 then some (.ofInt n) else none
  | _ => none

def Item.text? (i : Item) : Option String :=
  match i.content? with
  | some .null => some ""
  | some (.text s) => some s
  | _ => none

/-- A list of items of a kind; null is the empty list. -/
def Item.list? {α : Type} (elem : Item → Option α) (i : Item) : Option (Array α) :=
  match i.content? with
  | some .null => some #[]
  | some (.array items) => (items.mapM elem).map List.toArray
  | _ => none

/-- Bytes or nothing; a list of small numbers is taken for bytes. -/
def Item.code? (i : Item) : Option (Option (Array UInt8)) :=
  match i.content? with
  | some .null => some none
  | some (.bytes bs) | some (.bigNumber bs _) => some (some bs.toArray)
  | some (.array items) =>
    (items.mapM fun (i : Item) => (i.int? 0 255).map fun n => UInt8.ofNat n.toNat).map
      fun bs => some bs.toArray
  | _ => none

/-- The keys of entries. -/
inductive Key
  | number (n : Int64)
  | name (s : String)
deriving DecidableEq, Repr

/-- The key that an item is. A negative number must have 64 bits; a larger positive one is cut to them. -/
def Item.key? : Item → Option Key
  | .uint n => some (.number (.ofNat n))
  | .negative n => if n < 0x8000000000000000 then some (.number (.ofInt (-1 - n))) else none
  | .text chunks => (textOfChunks? chunks).map .name
  | _ => none

/-- Whether a list has no key twice. -/
def distinctKeys : List Key → Bool
  | [] => true
  | k :: ks => !ks.contains k && distinctKeys ks

/-- Entries by their keys. Null has no entries. -/
def Item.entries? (i : Item) : Option (List (Key × Item)) :=
  match i.content? with
  | some .null => some []
  | some (.map entries) => do
    let keyed ← entries.mapM fun (k, v) => k.key?.map fun k => (k, v)
    if distinctKeys (keyed.map Prod.fst) then some keyed else none
  | _ => none

/-- The first item under a number or its decimal text, read by `read`; `absent` if there is none. -/
def fieldOf {α : Type} (entries : List (Key × Item)) (n : Nat) (absent : α) (read : Item → Option α) :
    Option α :=
  match entries.find? fun e => e.1 = .number (.ofNat n) || e.1 = .name (toString n) with
  | some (_, i) => read i
  | none => some absent

def Item.int64? (i : Item) : Option Int64 := (i.int? (-0x8000000000000000) (0x7fffffffffffffff)).map .ofInt

def Item.pool? (i : Item) : Option Pool := do
  let es ← i.entries?
  let name (i : Item) : Option String := do fieldOf (← i.entries?) 1 "" Item.text?
  let ints ← fieldOf es 1 #[] (Item.list? fun i => (i.int? (-0x80000000) (0x7fffffff)).map .ofInt)
  let uints ← fieldOf es 2 #[] (Item.list? fun i => (i.int? 0 (0xffffffff)).map .ofInt)
  let doubles ← fieldOf es 3 #[] (Item.list? Item.double?)
  let strings ← fieldOf es 4 #[] (Item.list? Item.text?)
  let names ← fieldOf es 5 #[] (Item.list? name)
  some { ints, uints, doubles, strings, names }

/-- A pool, or none for a plain null. -/
def Item.optionalPool? : Item → Option (Option Pool)
  | .simple 22 | .simple 23 => some none
  | i => i.pool?.map some

def Item.method? (i : Item) : Option Method := do
  let es ← i.entries?
  let name ← fieldOf es 1 "" Item.text?
  let params ← fieldOf es 2 0 Item.int64?
  let flags ← fieldOf es 3 0 fun i => (i.int? 0 255).map .ofInt
  let maxStack ← fieldOf es 4 0 Item.int64?
  let locals ← fieldOf es 5 0 Item.int64?
  let code ← fieldOf es 6 none Item.code?
  let pool ← fieldOf es 7 none Item.optionalPool?
  some { name, params, flags := ⟨flags⟩, maxStack, locals, code, pool }

end Cbor

namespace Method

/-- The valid method that an item describes. -/
def ofItem (i : Item) : Except DescriptorFault Method :=
  match i.method? with
  | none => .error (.format .malformed)
  | some m =>
    match m.problem? with
    | some p => .error (.invalid m.name p)
    | none => .ok m

/-- Reads a method, which must take up the whole input. -/
def decode (bs : List UInt8) : Except DescriptorFault Method :=
  match Cbor.read bs with
  | .error f => .error (.format f)
  | .ok (i, []) => ofItem i
  | .ok _ => .error (.format .malformed)

/-- Reads methods one after another, fewer than `fuel`. -/
def decodeFrom : Nat → List UInt8 → Except DescriptorFault (List Method)
  | 0, _ => .error (.format .malformed)
  | fuel + 1, bs =>
    if bs.isEmpty then .ok []
    else match Cbor.read bs with
      | .error f => .error (.format f)
      | .ok (i, rest) => do
        let m ← ofItem i
        pure (m :: (← decodeFrom fuel rest))

/-- Reads methods up to the end of the input. -/
def decodeAll (bs : List UInt8) : Except DescriptorFault (List Method) := decodeFrom (bs.length + 1) bs

end Method

end MethodJit
