import MethodJit.Double.Reader
import MethodJit.Toml.Basic

/-!
# Numbers

Integers of 64 bits in base 10, 16, 8 or 2, and decimal numbers with a fraction or an exponent. Single
underscores may stand between digits, and a decimal number has no leading zeros.
-/

namespace MethodJit.Toml

/-- The digits of a text in which single underscores may stand between digits. `after` tells whether a
digit stands in front of the text. -/
def groupedDigits? (base : Nat) : Bool → List Char → Option (List Nat)
  | after, [] => if after then some [] else none
  | after, c :: cs =>
    if c = '_' then if after then groupedDigits? base false cs else none
    else do
      let d ← Text.hexValue? c
      if d < base then (groupedDigits? base true cs).map (d :: ·) else none

def ofDigits (base : Nat) (ds : List Nat) : Nat := ds.foldl (fun n d => base * n + d) 0

/-- The number of a text of digits. -/
def grouped? (base : Nat) (cs : List Char) : Option Nat := (groupedDigits? base false cs).map (ofDigits base)

/-- The sign in front of a text, which is true for a minus, and the rest. -/
def splitSign : List Char → Bool × List Char
  | '+' :: cs => (false, cs)
  | '-' :: cs => (true, cs)
  | cs => (false, cs)

def integerOf? (n : Int) : Option Scalar :=
  if -0x8000000000000000 ≤ n ∧ n < 0x8000000000000000 then some (.integer (.ofInt n)) else none

/-- Whether a character belongs to the digits of a part of a number. -/
def isGrouped (c : Char) : Bool := c.isDigit || c = '_'

/-- The exponent after a mantissa; nothing stands for zero. -/
def exponent? : List Char → Option Int
  | [] => some 0
  | c :: cs =>
    if c = 'e' || c = 'E' then
      let (neg, ds) := splitSign cs
      (grouped? 10 ds).map fun n => if neg then -(n : Int) else n
    else none

/-- A number with the digits `whole` in front of a point or an exponent. -/
def float? (neg : Bool) (whole : List Nat) (rest : List Char) : Option Scalar := do
  let (fraction, rest) ← match rest with
    | '.' :: cs => do
      let ds ← groupedDigits? 10 false (cs.takeWhile isGrouped)
      some (ds, cs.dropWhile isGrouped)
    | cs => some ([], cs)
  let e ← exponent? rest
  (Double.ofDecimal? neg (ofDigits 10 (whole ++ fraction)) (e - fraction.length)).map .float

/-- A decimal number without its sign. -/
def decimal? (neg : Bool) (cs : List Char) : Option Scalar := do
  let digits := cs.takeWhile isGrouped
  let rest := cs.dropWhile isGrouped
  let whole ← groupedDigits? 10 false digits
  if digits.head? = some '0' ∧ digits ≠ ['0'] then none
  else if rest = [] then
    let n := ofDigits 10 whole
    integerOf? (if neg then -(n : Int) else n)
  else float? neg whole rest

/-- The number that a whole text stands for. -/
def number? (cs : List Char) : Option Scalar :=
  match cs with
  | '0' :: 'x' :: ds => (grouped? 16 ds).bind fun n => integerOf? n
  | '0' :: 'o' :: ds => (grouped? 8 ds).bind fun n => integerOf? n
  | '0' :: 'b' :: ds => (grouped? 2 ds).bind fun n => integerOf? n
  | cs =>
    let (neg, body) := splitSign cs
    if body = ['i', 'n', 'f'] then some (.float (.infinity neg))
    else if body = ['n', 'a', 'n'] then some (.float .nan)
    else decimal? neg body

end MethodJit.Toml
