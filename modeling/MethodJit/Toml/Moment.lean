import MethodJit.Toml.Basic

/-!
# Dates and times

A moment is a date, a time of day, or both with a `T` between them and possibly an offset. Every field has
its full width, and the seconds of a time can be left out.
-/

namespace MethodJit.Toml

/-- A number of `width` decimal digits and the rest. -/
def fixedNumber? (width : Nat) (cs : List Char) : Option (Nat × List Char) :=
  let ds := cs.take width
  if ds.length = width ∧ ds.all Char.isDigit then
    some (ds.foldl (fun n c => 10 * n + (c.toNat - 48)) 0, cs.drop width)
  else none

/-- The rest after a character that has to be there. -/
def expect? (c : Char) : List Char → Option (List Char)
  | d :: cs => if d = c then some cs else none
  | [] => none

def isLeapYear (y : Nat) : Bool := y % 4 = 0 && (y % 100 ≠ 0 || y % 400 = 0)

def daysInMonth (y m : Nat) : Nat :=
  if m = 2 then if isLeapYear y then 29 else 28
  else if m = 4 || m = 6 || m = 9 || m = 11 then 30
  else 31

/-- The rest after a date. -/
def afterDate? (cs : List Char) : Option (List Char) := do
  let (y, cs) ← fixedNumber? 4 cs
  let (m, cs) ← fixedNumber? 2 (← expect? '-' cs)
  let (d, cs) ← fixedNumber? 2 (← expect? '-' cs)
  if 1 ≤ m ∧ m ≤ 12 ∧ 1 ≤ d ∧ d ≤ daysInMonth y m then some cs else none

/-- The rest after a fraction of a second, if there is one. -/
def afterFraction (cs : List Char) : List Char :=
  match cs with
  | '.' :: c :: ds => if c.isDigit then ds.dropWhile Char.isDigit else cs
  | _ => cs

/-- The rest after a time of day. -/
def afterTime? (cs : List Char) : Option (List Char) := do
  let (h, cs) ← fixedNumber? 2 cs
  let (m, cs) ← fixedNumber? 2 (← expect? ':' cs)
  if 24 ≤ h ∨ 60 ≤ m then none
  else match cs with
    | ':' :: cs => do
      let (s, cs) ← fixedNumber? 2 cs
      if s < 60 then some (afterFraction cs) else none
    | cs => some cs

/-- Whether a text is an offset from the common time. An offset can be of 24 hours and 60 minutes. -/
def isOffset (cs : List Char) : Bool :=
  match cs with
  | ['Z'] => true
  | sign :: cs =>
    (sign = '+' || sign = '-') && match fixedNumber? 2 cs with
      | some (h, ':' :: cs) =>
        match fixedNumber? 2 cs with
        | some (m, []) => h ≤ 24 && m ≤ 60
        | _ => false
      | _ => false
  | [] => false

def isMoment (cs : List Char) : Bool :=
  afterTime? cs = some [] || match afterDate? cs with
    | some [] => true
    | some ('T' :: cs) =>
      match afterTime? cs with
      | some rest => rest = [] || isOffset rest
      | none => false
    | _ => false

/-- The characters that can stand in moments. -/
def isMomentChar (c : Char) : Bool := c.isDigit || "-:TtZz .+".toList.contains c

/-- How a character of a moment is read: letters in upper case, and a blank for the `T`. -/
def momentChar : Char → Char
  | 't' => 'T'
  | ' ' => 'T'
  | 'z' => 'Z'
  | c => c

/-- Whether a text goes on as a moment: after its first digits comes a hyphen or a colon. -/
def startsMoment (cs : List Char) : Bool :=
  cs.head?.any Char.isDigit && (cs.dropWhile Char.isDigit).head?.any fun c => c = '-' || c = ':'

/-- The moment at the start of a text, and the rest. -/
def moment? (cs : List Char) : Option (Scalar × List Char) :=
  let written := ((cs.takeWhile isMomentChar).reverse.dropWhile (· = ' ')).reverse
  if isMoment (written.map momentChar) then
    some (.moment (String.ofList written), cs.dropWhile isMomentChar)
  else none

end MethodJit.Toml
