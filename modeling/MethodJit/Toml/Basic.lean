import MethodJit.Double.Basic
import MethodJit.Text.Hex

/-!
# TOML documents

What a document says is a sequence of statements: the headers of tables and the assignments of values to
keys. A key is a path of names, and a table in braces holds assignments of its own.
-/

namespace MethodJit.Toml

/-- The names that lead from the whole document to a value. -/
abbrev Path := List String

inductive Scalar
  | string (s : String)
  | integer (n : Int64)
  | float (x : Double)
  | boolean (b : Bool)
  /-- A date, a time of day or both, as it was written. -/
  | moment (text : String)
deriving DecidableEq, Repr

inductive Expression
  | scalar (s : Scalar)
  | array (items : List Expression)
  | table (entries : List (Path × Expression))
deriving Repr

inductive Statement
  /-- The header of a table. -/
  | table (path : Path)
  /-- The header of a further table in an array of tables. -/
  | tableItem (path : Path)
  | assign (path : Path) (value : Expression)
deriving Repr

/-- The characters of names that need no quotes. -/
def isBareChar (c : Char) : Bool := c.isAlphanum || c = '_' || c = '-'

/-- A character between quotes. -/
def quotedChar (c : Char) : List Char :=
  match c with
  | '"' => ['\\', '"']
  | '\\' => ['\\', '\\']
  | '\x08' => ['\\', 'b']
  | '\t' => ['\\', 't']
  | '\n' => ['\\', 'n']
  | '\x0c' => ['\\', 'f']
  | '\r' => ['\\', 'r']
  | c => if c.toNat < 0x20 || c.toNat = 0x7f then '\\' :: 'u' :: Text.hexPadded 4 c.toNat else [c]

/-- A name, between quotes if it has to be. -/
def nameText (s : String) : String :=
  let cs := s.toList
  if cs ≠ [] && cs.all isBareChar then s
  else String.ofList ('"' :: cs.flatMap quotedChar ++ ['"'])

def pathText (p : Path) : String := String.intercalate "." (p.map nameText)

end MethodJit.Toml
