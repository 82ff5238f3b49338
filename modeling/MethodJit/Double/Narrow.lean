import MethodJit.Double.Basic

/-!
# Shorter binary formats

A shorter format has fewer bits for the exponent and for the fraction. `NarrowFormat.widen` gives the
number that a bit pattern of the format stands for, and `NarrowFormat.narrow?` the bit pattern that
stands for a given number, if there is one.
-/

namespace MethodJit.Double

structure NarrowFormat where
  exponentBits : Nat
  fractionBits : Nat

/-- The format with 16 bits. -/
def half : NarrowFormat := ⟨5, 10⟩
/-- The format with 32 bits. -/
def single : NarrowFormat := ⟨8, 23⟩

namespace NarrowFormat

/-- The greatest biased exponent, which is that of infinite numbers. -/
def top (f : NarrowFormat) : Nat := Nat.pow 2 f.exponentBits - 1
def bias (f : NarrowFormat) : Nat := Nat.pow 2 (f.exponentBits - 1) - 1
/-- What the sign bit counts. -/
def signUnit (f : NarrowFormat) : Nat := Nat.pow 2 (f.exponentBits + f.fractionBits)
/-- What the lowest bit of the fraction counts in the fraction of a double. -/
def fractionUnit (f : NarrowFormat) : Nat := Nat.pow 2 (52 - f.fractionBits)

/-- The number of a bit pattern. -/
def widen (f : NarrowFormat) (n : Nat) : Double :=
  let neg := n / f.signUnit % 2 = 1
  let e := n / Nat.pow 2 f.fractionBits % (f.top + 1)
  let m := n % Nat.pow 2 f.fractionBits
  if e = 0 then ofRatio neg m (Nat.pow 2 (f.bias - 1 + f.fractionBits))
  else
    let e' := if e = f.top then 2047 else e + 1023 - f.bias
    ⟨.ofNat (signBit neg + e' * 0x10000000000000 + m * f.fractionUnit)⟩

/-- The bit pattern of a number without the bits for which the format has no place. -/
def truncated (f : NarrowFormat) (x : Double) : Nat :=
  let sign := if x.sign then f.signUnit else 0
  let e : Int := (x.exponent : Int) - 1023 + f.bias
  let magnitude :=
    if x.exponent = 2047 then f.top * Nat.pow 2 f.fractionBits + x.fraction / f.fractionUnit
    else if e ≤ 0 then (x.fraction + 0x10000000000000) / (f.fractionUnit * Nat.pow 2 (1 - e).toNat)
    else e.toNat * Nat.pow 2 f.fractionBits + x.fraction / f.fractionUnit
  sign + magnitude

/-- The bit pattern that stands for a number. -/
def narrow? (f : NarrowFormat) (x : Double) : Option Nat :=
  let n := f.truncated x
  if n < 2 * f.signUnit ∧ f.widen n = x then some n else none

end NarrowFormat

end MethodJit.Double
