/-!
# Log lines

A log line has a level, a message and named fields.
-/

namespace MethodJit

inductive LogLevel
  | trace
  | debug
  | info
  | warn
  | error
deriving DecidableEq, Repr

namespace LogLevel

def name : LogLevel → String
  | .trace => "trace"
  | .debug => "debug"
  | .info => "info"
  | .warn => "warn"
  | .error => "error"

/-- The weight of a level: a line passes a threshold that is not above its weight. -/
def weight : LogLevel → Int
  | .trace => -1
  | .debug => 0
  | .info => 1
  | .warn => 2
  | .error => 3

/-- The levels, the lightest first. -/
def all : List LogLevel := [.trace, .debug, .info, .warn, .error]

end LogLevel

inductive LogValue
  | text (s : String)
  | number (n : Int)
deriving DecidableEq, Repr

structure LogLine where
  level : LogLevel
  message : String
  fields : List (String × LogValue) := []
deriving DecidableEq, Repr

/-- The levels that pass a threshold. -/
def passingLevels (threshold : Int) : List LogLevel :=
  LogLevel.all.filter fun l => threshold ≤ l.weight

/-- The names of thresholds. Some are above all levels, and the empty name is that of lines without
a level. -/
def namedThresholds : List (String × Int) :=
  LogLevel.all.map (fun l => (l.name, l.weight)) ++
    [("fatal", 4), ("panic", 5), ("", 6), ("disabled", 7)]

/-- Why a text is no threshold. -/
inductive ThresholdFault
  | unknown (text : String)
  | outOfBounds (n : Int)
deriving DecidableEq, Repr

def ThresholdFault.message : ThresholdFault → String
  | .unknown text => s!"Unknown Level String: '{text}', defaulting to NoLevel"
  | .outOfBounds n => s!"Out-Of-Bounds Level: '{n}', defaulting to NoLevel"

/-- A decimal number of 64 bits with an optional sign. -/
def wordOfText? (s : String) : Option Int := do
  let (neg, ds) := match s.toList with
    | '-' :: ds => (true, ds)
    | '+' :: ds => (false, ds)
    | ds => (false, ds)
  if ds = [] ∨ !ds.all Char.isDigit then none
  let magnitude : Nat := ds.foldl (fun n c => 10 * n + (c.toNat - 48)) 0
  let n : Int := if neg then -(magnitude : Int) else magnitude
  if -0x8000000000000000 ≤ n ∧ n < 0x8000000000000000 then some n else none

/-- The threshold that a text stands for: a name or a number of 8 bits. -/
def thresholdOfText (s : String) : Except ThresholdFault Int :=
  match namedThresholds.lookup s with
  | some n => .ok n
  | none =>
    match wordOfText? s with
    | none => .error (.unknown s)
    | some n => if -128 ≤ n ∧ n ≤ 127 then .ok n else .error (.outOfBounds n)

end MethodJit
