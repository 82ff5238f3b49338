/-!
# Numbers in the 64-bit binary format

A `Double` is a bit pattern. `Double.parts` reads a finite number as `± m · 2 ^ q`; `Double.ofRatio`
rounds a quotient of natural numbers to the nearest number, ties to the even one. The remainder and
the conversions to integers are exact, in natural numbers. Addition, subtraction, multiplication,
division and the order are those of the machine.
-/

namespace MethodJit

/-- A number of the 64-bit binary format, held as its bit pattern. -/
structure Double where
  bits : UInt64
deriving DecidableEq, Repr, Inhabited

namespace Double

def sign (x : Double) : Bool := 0x8000000000000000 ≤ x.bits.toNat
/-- The biased exponent. -/
def exponent (x : Double) : Nat := x.bits.toNat / 0x10000000000000 % 2048
def fraction (x : Double) : Nat := x.bits.toNat % 0x10000000000000

def isNaN (x : Double) : Bool := x.exponent = 2047 && x.fraction ≠ 0
def isInfinite (x : Double) : Bool := x.exponent = 2047 && x.fraction = 0
def isZero (x : Double) : Bool := x.exponent = 0 && x.fraction = 0

/-- The significand `m` and the exponent `q` of a finite number `± m · 2 ^ q`. -/
def parts (x : Double) : Nat × Int :=
  if x.exponent = 0 then (x.fraction, -1074)
  else (x.fraction + 0x10000000000000, (x.exponent : Int) - 1075)

def nan : Double := ⟨0x7ff8000000000000⟩

def signBit (neg : Bool) : Nat := if neg then 0x8000000000000000 else 0

def infinity (neg : Bool) : Double := ⟨.ofNat (signBit neg + 0x7ff0000000000000)⟩
def zero (neg : Bool) : Double := ⟨.ofNat (signBit neg)⟩

/-- `⌊num / den⌋`, or one more if that is nearer, or equally near and even. -/
def roundDiv (num den : Nat) : Nat :=
  let d := num / den
  let r := num % den
  if 2 * r < den then d
  else if 2 * r = den then d + d % 2
  else d + 1

/-- `num / den / 2 ^ q` as a quotient of natural numbers. -/
def scaled (num den : Nat) (q : Int) : Nat × Nat :=
  (num * Nat.pow 2 (-q).toNat, den * Nat.pow 2 q.toNat)

/-- The nearest number to `± num / den`, for a positive `den`: ties go to the even significand, and
what is too large becomes infinite. -/
def ofRatio (neg : Bool) (num den : Nat) : Double :=
  if num = 0 then zero neg
  else
    let q₀ := max ((num.log2 : Int) - den.log2 - 53) (-1074)
    let s₀ := scaled num den q₀
    let q := if s₀.1 / s₀.2 < 0x20000000000000 then q₀ else q₀ + 1
    let s := scaled num den q
    let n := (q + 1074).toNat * 0x10000000000000 + roundDiv s.1 s.2
    ⟨.ofNat (signBit neg + min n 0x7ff0000000000000)⟩

def ofNat (n : Nat) : Double := ofRatio false n 1
def ofInt (n : Int) : Double := ofRatio (n < 0) n.natAbs 1

/-- The magnitude of a finite number without its fractional part. -/
def truncate (x : Double) : Nat :=
  let (m, q) := x.parts
  m * Nat.pow 2 q.toNat / Nat.pow 2 (-q).toNat

/-- Whether a finite number has no fractional part. -/
def isIntegral (x : Double) : Bool :=
  let (m, q) := x.parts
  m % Nat.pow 2 (-q).toNat = 0

/-- The integer part modulo `2 ^ 32`, as a signed word. Infinite numbers and NaN give zero. -/
def toInt32 (x : Double) : Int32 :=
  if x.exponent = 2047 then 0
  else
    let n : Nat := x.truncate % 0x100000000
    .ofInt (if x.sign then -(n : Int) else n)

/-- The signed word equal to a number, if there is one. A negative zero is no word. -/
def toInt32? (x : Double) : Option Int32 :=
  if x.exponent = 2047 || !x.isIntegral || (x.isZero && x.sign) then none
  else
    let n : Int := if x.sign then -x.truncate else x.truncate
    if -0x80000000 ≤ n && n < 0x80000000 then some (.ofInt n) else none

def toFloat (x : Double) : Float := Float.ofBits x.bits
def ofFloat (x : Float) : Double := ⟨x.toBits⟩

instance : Add Double := ⟨fun x y => ofFloat (x.toFloat + y.toFloat)⟩
instance : Sub Double := ⟨fun x y => ofFloat (x.toFloat - y.toFloat)⟩
instance : Mul Double := ⟨fun x y => ofFloat (x.toFloat * y.toFloat)⟩
instance : Div Double := ⟨fun x y => ofFloat (x.toFloat / y.toFloat)⟩
instance : Neg Double := ⟨fun x => ⟨x.bits ^^^ 0x8000000000000000⟩⟩

/-- Numeric equality: the two zeros are equal and a NaN is equal to nothing. -/
def equal (x y : Double) : Bool :=
  !x.isNaN && !y.isNaN && (x.bits = y.bits || (x.isZero && y.isZero))

/-- The position of a number in the numeric order, for numbers other than NaN. -/
def rank (x : Double) : Int :=
  let n : Nat := x.bits.toNat % 0x8000000000000000
  if x.sign then -(n : Int) else n

/-- Numeric order; nothing is less than a NaN or greater than it. -/
def less (x y : Double) : Bool :=
  !x.isNaN && !y.isNaN && x.rank < y.rank

/-- The remainder of the division of `x` by `y` with the sign of `x`, without rounding. -/
def remainder (x y : Double) : Double :=
  if y.isZero || x.isInfinite || x.isNaN || y.isNaN then nan
  else if y.isInfinite then x
  else
    let (m, q) := x.parts
    let (m', q') := y.parts
    let low := min q q'
    let r := m * Nat.pow 2 (q - low).toNat % (m' * Nat.pow 2 (q' - low).toNat)
    ofRatio x.sign (r * Nat.pow 2 low.toNat) (Nat.pow 2 (-low).toNat)

end Double

end MethodJit
