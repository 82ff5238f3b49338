import MethodJit.Double.Basic

/-!
# Shortest decimals

`Double.shortest` finds, for a finite positive number, the decimal with the fewest digits that rounds
to it; of several such decimals the nearest to the number, and of two equally near the one with an
even last digit.
-/

namespace MethodJit.Double

/-- A positive decimal `0.d₁d₂…dₙ · 10 ^ point`, with the digits as one number `d₁d₂…dₙ`. -/
structure Decimal where
  digits : Nat
  point : Int
deriving DecidableEq, Repr

/-- The decimal digits of a number, most significant first. -/
def Decimal.chars (d : Decimal) : List Char := Nat.toDigits 10 d.digits

/-- Removes trailing zeros, at most `fuel` of them. -/
def dropZeros : Nat → Nat → Nat
  | 0, n => n
  | fuel + 1, n => if n ≠ 0 ∧ n % 10 = 0 then dropZeros fuel (n / 10) else n

/-- The reals that round to `m · 2 ^ q`: their ends in quarters of `2 ^ q`, and whether the ends
belong to them. -/
structure Interval where
  low : Nat
  high : Nat
  closed : Bool

def Interval.of (m : Nat) (q : Int) : Interval where
  low := 4 * m - (if m = 0x10000000000000 ∧ q ≠ -1074 then 1 else 2)
  high := 4 * m + 2
  closed := m % 2 = 0

/-- Whether `d · 10 ^ t` is in the interval around `m · 2 ^ q`, all sides scaled by the factors
`two` for `2 ^ q / 4` and `ten` for `10 ^ t`. -/
def Interval.contains (i : Interval) (two ten d : Nat) : Bool :=
  if i.closed then i.low * two ≤ d * ten && d * ten ≤ i.high * two
  else i.low * two < d * ten && d * ten < i.high * two

/-- The least `k` at or above `start`, within `fuel` steps, with `num / den < 10 ^ k`. -/
def decimalPoint (num den : Nat) : Nat → Int → Int
  | 0, k => k
  | fuel + 1, k =>
    if num * Nat.pow 10 (-k).toNat < den * Nat.pow 10 k.toNat then k
    else decimalPoint num den fuel (k + 1)

/-- Searches the grids of `n`, `n + 1`, … digits for a decimal in the interval. -/
def shortestFrom (m : Nat) (q : Int) (point : Int) : Nat → Nat → Nat × Nat
  | 0, n => (0, n)
  | fuel + 1, n =>
    let t := point - n
    let i := Interval.of m q
    let two := Nat.pow 2 (q - 2).toNat * Nat.pow 10 (-t).toNat
    let ten := Nat.pow 2 (2 - q).toNat * Nat.pow 10 t.toNat
    let d := 4 * m * two / ten
    let below := i.contains two ten d
    let above := i.contains two ten (d + 1)
    let r := 4 * m * two - d * ten
    if below && above then
      (if 2 * r < ten then d else if ten < 2 * r then d + 1 else d + d % 2, n)
    else if below then (d, n)
    else if above then (d + 1, n)
    else shortestFrom m q point fuel (n + 1)

/-- The shortest decimal of the positive number `m · 2 ^ q`. -/
def shortestOf (m : Nat) (q : Int) : Decimal :=
  let num := m * Nat.pow 2 q.toNat
  let den := Nat.pow 2 (-q).toNat
  let start := ((num.log2 : Int) - den.log2 - 1) * 30103 / 100000 - 1
  let point := decimalPoint num den 8 start
  let (d, n) := shortestFrom m q point 17 1
  ⟨dropZeros 20 d, point + ((Nat.toDigits 10 d).length - n : Int)⟩

/-- The shortest decimal of the magnitude of a finite number other than zero. -/
def shortest (x : Double) : Decimal :=
  let (m, q) := x.parts
  shortestOf m q

end MethodJit.Double
