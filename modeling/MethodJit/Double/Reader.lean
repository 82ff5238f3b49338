import MethodJit.Double.Basic
import MethodJit.Text.Blank
import MethodJit.Text.Hex

/-!
# Text as numbers

`Double.ofText` reads a number from a text. Blank characters around it do not count, and an empty
text is zero. After `0x` stands an unsigned hexadecimal integer of 64 bits. Otherwise the text is a
decimal or hexadecimal literal with an optional sign, where underscores may separate digits, or a name
of infinity. Whatever is no number, or too large for one, is NaN.
-/

namespace MethodJit.Double

/-- What is left of a literal and what has been read of it: the digits as one number, how many of
them stand after the point, and whether there was a digit, a point or an underscore. -/
structure Mantissa where
  rest : List Char
  value : Nat := 0
  places : Nat := 0
  digits : Bool := false
  point : Bool := false
  underscores : Bool := false

/-- Reads digits of the base, underscores and at most one point. -/
def readMantissa (base : Nat) : List Char → Mantissa → Mantissa
  | [], m => { m with rest := [] }
  | c :: cs, m =>
    if c = '_' then readMantissa base cs { m with underscores := true }
    else if c = '.' then
      if m.point then { m with rest := c :: cs } else readMantissa base cs { m with point := true }
    else match Text.hexValue? c with
      | some d =>
        if d < base then
          readMantissa base cs
            { m with
              value := m.value * base + d
              places := if m.point then m.places + 1 else m.places
              digits := true }
        else { m with rest := c :: cs }
      | none => { m with rest := c :: cs }

/-- Reads the digits of an exponent, which stops growing at five digits. -/
def readExponent : List Char → Nat → Bool → Nat × Bool × List Char
  | [], e, u => (e, u, [])
  | c :: cs, e, u =>
    if c = '_' then readExponent cs e true
    else if c.isDigit then
      readExponent cs (if e < 10000 then e * 10 + (c.toNat - 48) else e) u
    else (e, u, c :: cs)

/-- What stood before the present character, for the placing of underscores. -/
inductive Previous
  | start
  | digit
  | underscore
  | other
deriving DecidableEq

/-- Underscores stand between digits only. -/
def underscoresFit (hex : Bool) : List Char → Previous → Bool
  | [], p => p ≠ .underscore
  | c :: cs, p =>
    if c.isDigit || (hex && (Text.hexValue? c).isSome) then underscoresFit hex cs .digit
    else if c = '_' then p = .digit && underscoresFit hex cs .underscore
    else p ≠ .underscore && underscoresFit hex cs .other

/-- A mark of the base counts as a digit for an underscore that follows. -/
def underscoresAllowed : List Char → Bool
  | '0' :: c :: cs =>
    if c.toLower = 'x' then underscoresFit true cs .digit
    else if c.toLower = 'b' || c.toLower = 'o' then underscoresFit false cs .digit
    else underscoresFit false ('0' :: c :: cs) .start
  | cs => underscoresFit false cs .start

/-- The number of decimal digits of `n`. -/
def digitCount (n : Nat) : Nat := (Nat.toDigits 10 n).length

/-- `± value · 10 ^ e`, or nothing if it is too large. -/
def ofDecimal? (neg : Bool) (value : Nat) (e : Int) : Option Double :=
  if value = 0 then some (zero neg)
  else
    let size := e + digitCount value
    if 400 < size then none
    else if size < -400 then some (zero neg)
    else
      let x := ofRatio neg (value * Nat.pow 10 e.toNat) (Nat.pow 10 (-e).toNat)
      if x.isInfinite then none else some x

/-- `± value · 2 ^ e`, or nothing if it is too large. -/
def ofBinary? (neg : Bool) (value : Nat) (e : Int) : Option Double :=
  if value = 0 then some (zero neg)
  else
    let size := e + value.log2
    if 1100 < size then none
    else if size < -1200 then some (zero neg)
    else
      let x := ofRatio neg (value * Nat.pow 2 e.toNat) (Nat.pow 2 (-e).toNat)
      if x.isInfinite then none else some x

/-- The exponent after a mantissa, if the text goes on with `mark`. -/
def exponentAfter? (mark : Char) : List Char → Option (Option (Int × Bool × List Char))
  | [] => some none
  | c :: cs =>
    if c.toLower ≠ mark then some none
    else
      let (neg, ds) := match cs with
        | '+' :: ds => (false, ds)
        | '-' :: ds => (true, ds)
        | ds => (false, ds)
      match ds with
      | [] => none
      | d :: _ =>
        if d.isDigit then
          let (e, u, rest) := readExponent ds 0 false
          some (some ((if neg then -(e : Int) else e), u, rest))
        else none

/-- A literal without its sign. -/
def ofLiteral? (neg : Bool) (cs : List Char) : Option Double :=
  let hex : Bool := match cs with
    | '0' :: c :: _ :: _ => c.toLower == 'x'
    | _ => false
  let m := readMantissa (if hex then 16 else 10) (if hex then cs.drop 2 else cs) { rest := [] }
  if !m.digits then none
  else do
    let (e, u, rest) ← match ← exponentAfter? (if hex then 'p' else 'e') m.rest with
      | some r => some r
      | none => if hex then none else some (0, false, m.rest)
    if rest ≠ [] then none
    else if (m.underscores || u) && !underscoresAllowed cs then none
    else if hex then ofBinary? neg m.value (e - 4 * m.places)
    else ofDecimal? neg m.value (e - m.places)

/-- The names of infinity, in any case. -/
def isInfinityName (cs : List Char) : Bool :=
  let s := String.ofList (cs.map Char.toLower)
  s == "inf" || s == "infinity"

/-- A number with an optional sign. -/
def ofSigned? (cs : List Char) : Option Double :=
  let (neg, ds) := match cs with
    | '+' :: ds => (false, ds)
    | '-' :: ds => (true, ds)
    | ds => (false, ds)
  if isInfinityName ds then some (infinity neg) else ofLiteral? neg ds

/-- An unsigned hexadecimal integer of at most 64 bits. -/
def ofHex? (cs : List Char) : Option Double :=
  if cs = [] then none
  else do
    let n ← cs.foldlM (fun n c => (Text.hexValue? c).map (n * 16 + ·)) 0
    if n < 0x10000000000000000 then some (ofNat n) else none

/-- The number that a text stands for. -/
def ofText (s : String) : Double :=
  match Text.trimBlank s.toList with
  | [] => zero false
  | '0' :: c :: cs =>
    if c = 'x' || c = 'X' then (ofHex? cs).getD nan
    else (ofSigned? ('0' :: c :: cs)).getD nan
  | cs => (ofSigned? cs).getD nan

end MethodJit.Double
