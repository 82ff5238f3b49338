import MethodJit.Double.Shortest

/-!
# Numbers as text

A number is written with its shortest digits. `NumberFormat` holds the decisions of the format: below
which magnitude an integral number is written out, and which decimal exponents of the other numbers
are written positionally.
-/

namespace MethodJit.Double

/-- Which numbers are written positionally. -/
structure NumberFormat where
  /-- Integral numbers below this magnitude are written without an exponent. -/
  integralBelow : Nat
  /-- The least exponent of another number that is written positionally. -/
  least : Int
  /-- The first exponent of another number that is written with an exponent. -/
  limit : Int

/-- Integral numbers are written out below `10 ^ 21`; other numbers have an exponent when it is below
`-4` or at least `6`. -/
def scriptFormat : NumberFormat := ⟨1000000000000000000000, -4, 6⟩

/-- `digits` with the decimal point after `point` of them, padded with zeros on either side. -/
def positional (digits : List Char) (point : Int) : List Char :=
  if point ≤ 0 then
    '0' :: '.' :: List.replicate (-point).toNat '0' ++ digits
  else if point.toNat < digits.length then
    digits.take point.toNat ++ '.' :: digits.drop point.toNat
  else digits ++ List.replicate (point.toNat - digits.length) '0'

/-- An exponent with its sign and at least two digits. -/
def exponentText (e : Int) : List Char :=
  let ds := Nat.toDigits 10 e.natAbs
  (if e < 0 then '-' else '+') :: (if ds.length < 2 then '0' :: ds else ds)

/-- `d.ddd` followed by the exponent. -/
def scientific (digits : List Char) (e : Int) : List Char :=
  (match digits with
    | [] => []
    | [d] => [d]
    | d :: ds => d :: '.' :: ds) ++ 'e' :: exponentText e

/-- The text of the magnitude of a finite number. -/
def magnitudeText (f : NumberFormat) (x : Double) : List Char :=
  if x.isZero then ['0']
  else
    let d := x.shortest
    if x.isIntegral && x.truncate < f.integralBelow then positional d.chars d.point
    else
      let e := d.point - 1
      if e < f.least || f.limit ≤ e then scientific d.chars e
      else positional d.chars d.point

/-- The text of a number. -/
def text (x : Double) : String :=
  if x.isNaN then "NaN"
  else
    let sign := if x.sign then "-" else ""
    if x.isInfinite then sign ++ "Infinity"
    else sign ++ String.ofList (magnitudeText scriptFormat x)

end MethodJit.Double
