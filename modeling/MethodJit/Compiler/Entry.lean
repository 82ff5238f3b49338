import MethodJit.IR.Basic

/-!
# Pending values

An entry is a value that has not been stored yet: an object, which owns a reference, or a number that
has not been made an object. A slot is what is known of a local: the value that it holds or, if it is
dirty, that it has yet to be given.
-/

namespace MethodJit.Compiler

open IR

inductive EntryKind
  | none
  | object
  | int
  | other (n : UInt8)
deriving DecidableEq, Repr

namespace EntryKind

def ofNumber (n : UInt8) : EntryKind :=
  if n = 0 then .none else if n = 1 then .object else if n = 2 then .int else .other n

def name : EntryKind → String
  | .none => "none"
  | .object => "object"
  | .int => "int"
  | .other n => s!"<kind {n}>"

end EntryKind

structure Entry where
  kind : EntryKind := .none
  value : ValueId := 0
deriving DecidableEq, Repr

namespace Entry

def object (v : ValueId) : Entry := ⟨.object, v⟩
def int (v : ValueId) : Entry := ⟨.int, v⟩

def isNone (e : Entry) : Bool := e.kind = .none

/-- Whether the entry owns a reference. -/
def owns (e : Entry) : Bool := e.kind = .object

def text (e : Entry) : String :=
  if e.isNone then "none" else e.kind.name ++ ":" ++ valueName e.value

end Entry

structure Slot where
  entry : Entry := {}
  dirty : Bool := false
deriving DecidableEq, Repr

def Slot.text (s : Slot) : String := s.entry.text ++ if s.dirty then " dirty" else ""

end MethodJit.Compiler
