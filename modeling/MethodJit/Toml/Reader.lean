import MethodJit.Toml.Moment
import MethodJit.Toml.Number

/-!
# Reading documents

`readStatements?` gives the statements of a text. The readers of parts of a text give what they read and
the rest. Those that go through a text step by step have fuel, of which `fuelFor` gives enough.
-/

namespace MethodJit.Toml

def fuelFor (cs : List Char) : Nat := 2 * cs.length + 2

def isBlank (c : Char) : Bool := c = ' ' || c = '\t'

def isBreak (c : Char) : Bool := c = '\n' || c = '\r'

/-- Whether all characters of a text can stand in a document: controls cannot, and a carriage return only in
front of a line feed. -/
def isPlain : List Char → Bool
  | [] => true
  | '\r' :: cs => cs.head? = some '\n' && isPlain cs
  | c :: cs => (isBlank c || isBreak c || 0x20 ≤ c.toNat && c.toNat ≠ 0x7f) && isPlain cs

def skipBlanks (cs : List Char) : List Char := cs.dropWhile isBlank

/-- Skips blanks, line breaks and comments. The flag tells whether the text starts inside a comment. -/
def skipGaps : Bool → List Char → List Char
  | _, [] => []
  | true, c :: cs => skipGaps (!isBreak c) cs
  | false, c :: cs =>
    if c = '#' then skipGaps true cs
    else if isBlank c || isBreak c then skipGaps false cs
    else c :: cs

/-! ### Strings -/

/-- The character with a code of `width` hexadecimal digits. -/
def codedChar? (width : Nat) (cs : List Char) : Option (Char × List Char) := do
  let ds ← (cs.take width).mapM Text.hexValue?
  let n := ofDigits 16 ds
  if ds.length = width ∧ n.isValidChar then some (.ofNat n, cs.drop width) else none

/-- The character that is written after a backslash. -/
def escapedChar? : List Char → Option (Char × List Char)
  | 'b' :: cs => some ('\x08', cs)
  | 't' :: cs => some ('\t', cs)
  | 'n' :: cs => some ('\n', cs)
  | 'f' :: cs => some ('\x0c', cs)
  | 'r' :: cs => some ('\r', cs)
  | 'e' :: cs => some ('\x1b', cs)
  | '"' :: cs => some ('"', cs)
  | '\\' :: cs => some ('\\', cs)
  | 'x' :: cs => codedChar? 2 cs
  | 'u' :: cs => codedChar? 4 cs
  | 'U' :: cs => codedChar? 8 cs
  | _ => none

/-- The rest of a string in double quotes. -/
def readBasic : Nat → List Char → Option (List Char × List Char)
  | 0, _ => none
  | _, [] => none
  | fuel + 1, c :: cs =>
    if c = '"' then some ([], cs)
    else if isBreak c then none
    else do
      let (c, cs) ← if c = '\\' then escapedChar? cs else some (c, cs)
      let (s, cs) ← readBasic fuel cs
      some (c :: s, cs)

/-- The rest of a string in single quotes. -/
def readLiteral (cs : List Char) : Option (List Char × List Char) :=
  let s := cs.takeWhile fun c => c ≠ '\'' && !isBreak c
  match cs.drop s.length with
  | '\'' :: rest => some (s, rest)
  | _ => none

/-- What a run of quotes in a string of several lines stands for. -/
inductive QuoteRun
  /-- The quotes belong to the string. -/
  | inside
  /-- All but the last three quotes belong to the string, which ends. -/
  | closing (kept : Nat)
  | tooLong

def quoteRun (limit n : Nat) : QuoteRun :=
  if n < 3 then .inside else if n ≤ limit then .closing (n - 3) else .tooLong

/-- A string of several lines does not begin with a line break. -/
def skipFirstBreak : List Char → List Char
  | '\n' :: cs => cs
  | '\r' :: '\n' :: cs => cs
  | cs => cs

/-- The rest of a string of several lines in double quotes. The character in front of the rest is
`before`: after a backslash a run of quotes can be longer by one. A backslash at the end of a line hides the
blanks and line breaks that follow it. -/
def readBasicLines : Nat → Char → List Char → Option (List Char × List Char)
  | 0, _, _ => none
  | _, _, [] => none
  | fuel + 1, before, c :: cs =>
    if c = '"' then
      let run := cs.takeWhile (· = '"')
      let rest := cs.dropWhile (· = '"')
      match quoteRun (if before = '\\' then 6 else 5) (run.length + 1) with
      | .inside => do
        let (s, rest) ← readBasicLines fuel c rest
        some (c :: run ++ s, rest)
      | .closing kept => some (.replicate kept c, rest)
      | .tooLong => none
    else if c = '\\' then
      let gap := cs.takeWhile fun c => isBlank c || isBreak c
      if gap.contains '\n' then readBasicLines fuel '\n' (cs.drop gap.length)
      else do
        let (e, rest) ← escapedChar? cs
        let (s, rest) ← readBasicLines fuel (cs.headD c) rest
        some (e :: s, rest)
    else do
      let (s, rest) ← readBasicLines fuel c cs
      some (c :: s, rest)

/-- The rest of a string of several lines in single quotes. -/
def readLiteralLines : Nat → List Char → Option (List Char × List Char)
  | 0, _ => none
  | _, [] => none
  | fuel + 1, c :: cs =>
    if c = '\'' then
      let run := cs.takeWhile (· = '\'')
      let rest := cs.dropWhile (· = '\'')
      match quoteRun 5 (run.length + 1) with
      | .inside => do
        let (s, rest) ← readLiteralLines fuel rest
        some (c :: run ++ s, rest)
      | .closing kept => some (.replicate kept c, rest)
      | .tooLong => none
    else do
      let (s, rest) ← readLiteralLines fuel cs
      some (c :: s, rest)

/-! ### Keys -/

def readName (cs : List Char) : Option (String × List Char) := do
  let (s, rest) ← match skipBlanks cs with
    | '"' :: cs => readBasic (fuelFor cs) cs
    | '\'' :: cs => readLiteral cs
    | cs =>
      if cs.head?.any isBareChar then some (cs.takeWhile isBareChar, cs.dropWhile isBareChar) else none
  some (String.ofList s, rest)

/-- Names with points between them. -/
def readPath : Nat → List Char → Option (Path × List Char)
  | 0, _ => none
  | fuel + 1, cs => do
    let (name, cs) ← readName cs
    match skipBlanks cs with
    | '.' :: cs => do
      let (path, cs) ← readPath fuel cs
      some (name :: path, cs)
    | cs => some ([name], cs)

/-- A key and the sign after it. -/
def readKey (cs : List Char) : Option (Path × List Char) := do
  let (path, cs) ← readPath (fuelFor cs) cs
  match cs with
  | '=' :: cs => some (path, cs)
  | _ => none

/-! ### Values -/

/-- The characters of numbers. -/
def isNumberChar (c : Char) : Bool := c.isAlphanum || c = '_' || c = '+' || c = '-' || c = '.'

def readScalar (cs : List Char) : Option (Scalar × List Char) :=
  let string (r : Option (List Char × List Char)) : Option (Scalar × List Char) :=
    r.map fun (s, rest) => (.string (String.ofList s), rest)
  match cs with
  | '"' :: '"' :: '"' :: cs =>
    let cs := skipFirstBreak cs
    string (readBasicLines (fuelFor cs) '\n' cs)
  | '"' :: cs => string (readBasic (fuelFor cs) cs)
  | '\'' :: '\'' :: '\'' :: cs =>
    let cs := skipFirstBreak cs
    string (readLiteralLines (fuelFor cs) cs)
  | '\'' :: cs => string (readLiteral cs)
  | 't' :: 'r' :: 'u' :: 'e' :: cs => some (.boolean true, cs)
  | 'f' :: 'a' :: 'l' :: 's' :: 'e' :: cs => some (.boolean false, cs)
  | cs =>
    if startsMoment cs then moment? cs
    else (number? (cs.takeWhile isNumberChar)).map fun n => (n, cs.dropWhile isNumberChar)

mutual

def readValue : Nat → List Char → Option (Expression × List Char)
  | 0, _ => none
  | fuel + 1, cs =>
    match cs with
    | '[' :: cs => do
      let (items, cs) ← readItems fuel cs
      some (.array items, cs)
    | '\x7b' :: cs => do
      let (entries, cs) ← readEntries fuel cs
      some (.table entries, cs)
    | cs => do
      let (s, cs) ← readScalar cs
      some (.scalar s, cs)

/-- The rest of an array in front of an item or its end. -/
def readItems : Nat → List Char → Option (List Expression × List Char)
  | 0, _ => none
  | fuel + 1, cs =>
    match skipGaps false cs with
    | ']' :: cs => some ([], cs)
    | cs => do
      let (item, cs) ← readValue fuel cs
      match skipGaps false cs with
      | ',' :: cs => do
        let (items, cs) ← readItems fuel cs
        some (item :: items, cs)
      | ']' :: cs => some ([item], cs)
      | _ => none

/-- The rest of a table in front of an entry or its end. -/
def readEntries : Nat → List Char → Option (List (Path × Expression) × List Char)
  | 0, _ => none
  | fuel + 1, cs =>
    match skipGaps false cs with
    | '\x7d' :: cs => some ([], cs)
    | cs => do
      let (path, cs) ← readKey cs
      let (value, cs) ← readValue fuel (skipBlanks cs)
      match skipGaps false cs with
      | ',' :: cs => do
        let (entries, cs) ← readEntries fuel cs
        some ((path, value) :: entries, cs)
      | '\x7d' :: cs => some ([(path, value)], cs)
      | _ => none

end

/-! ### Statements -/

def readStatement (cs : List Char) : Option (Statement × List Char) :=
  match cs with
  | '[' :: '[' :: cs => do
    let (path, cs) ← readPath (fuelFor cs) cs
    match cs with
    | ']' :: ']' :: cs => some (.tableItem path, cs)
    | _ => none
  | '[' :: cs => do
    let (path, cs) ← readPath (fuelFor cs) cs
    match cs with
    | ']' :: cs => some (.table path, cs)
    | _ => none
  | cs => do
    let (path, cs) ← readKey cs
    let (value, cs) ← readValue (fuelFor cs) (skipBlanks cs)
    some (.assign path value, cs)

/-- Whether a line has nothing more than a comment. -/
def endsLine (cs : List Char) : Bool :=
  (skipBlanks cs).head?.all fun c => c = '#' || isBreak c

/-- The statements of a text, fewer than `fuel`. -/
def readAll? : Nat → List Char → Option (List Statement)
  | 0, _ => none
  | fuel + 1, cs =>
    match skipGaps false cs with
    | [] => some []
    | cs => do
      let (s, cs) ← readStatement cs
      if endsLine cs then (readAll? fuel cs).map (s :: ·) else none

def readStatements? (s : String) : Option (List Statement) :=
  let cs := s.toList
  if isPlain cs then readAll? (fuelFor cs) cs else none

end MethodJit.Toml
