import MethodJit.Toml.Reader

/-!
# Documents as tables

`ofStatements?` builds the table that statements describe, and keeps the paths of all keys and headers. A
table that is only implied, by a longer path, can be defined later; everything else is defined once.
-/

namespace MethodJit.Toml

inductive Value
  | scalar (s : Scalar)
  | array (items : List Value)
  /-- An array of tables that have headers. -/
  | tables (items : List (List (String × Value)))
  | table (entries : List (String × Value))
deriving Repr

abbrev Table := List (String × Value)

namespace Table

def get? (t : Table) (name : String) : Option Value := t.lookup name

/-- Replaces the value of a name, or adds one at the end. -/
def set (t : Table) (name : String) (v : Value) : Table :=
  if (get? t name).isSome then t.map fun e => if e.1 = name then (name, v) else e
  else t ++ [(name, v)]

/-- Changes the table at a path. An array of tables stands for its last table. -/
def updateAt? (f : Table → Option Table) : Path → Table → Option Table
  | [], t => f t
  | name :: path, t =>
    match get? t name with
    | some (.table sub) => (updateAt? f path sub).map fun sub => set t name (.table sub)
    | some (.tables items) => do
      let sub ← updateAt? f path (← items.getLast?)
      some (set t name (.tables (items.dropLast ++ [sub])))
    | _ => none

/-- The table at a path. -/
def at? : Path → Table → Option Table
  | [], t => some t
  | name :: path, t =>
    match get? t name with
    | some (.table sub) => at? path sub
    | some (.tables items) => items.getLast?.bind (at? path)
    | _ => none

/-- Stores a value at a path, in tables that are made as needed. Everything on the way must be a table. -/
def setAt? : Path → Value → Table → Option Table
  | [], _, t => some t
  | [name], v, t => some (set t name v)
  | name :: path, v, t =>
    match get? t name with
    | none => (setAt? path v []).map fun sub => set t name (.table sub)
    | some (.table sub) => (setAt? path v sub).map fun sub => set t name (.table sub)
    | some _ => none

end Table

mutual

/-- The value of an expression on its own. There is none if a table has a key that leads through something
other than a table. -/
def Expression.value? : Expression → Option Value
  | .scalar s => some (.scalar s)
  | .array items => (itemValues? items).map .array
  | .table entries => (entryValues? entries []).map .table

def itemValues? : List Expression → Option (List Value)
  | [] => some []
  | e :: es => do
    let v ← e.value?
    some (v :: (← itemValues? es))

/-- Adds entries to a table. -/
def entryValues? : List (Path × Expression) → Table → Option Table
  | [], t => some t
  | (path, e) :: es, t => do entryValues? es (← Table.setAt? path (← e.value?) t)

end

/-- What is known while a document is built. -/
structure Draft where
  root : Table := []
  /-- Paths whose value was written as an array. -/
  arrays : List Path := []
  /-- Paths of tables that are only implied. -/
  implied : List Path := []
  /-- The paths of keys and headers. -/
  keys : List Path := []

/-- Building steps. A step fails if something is defined twice, or is no table where one is needed. -/
abbrev Build := StateT Draft Option

namespace Build

def imply (path : Path) : Build Unit :=
  modify fun d => { d with implied := path :: d.implied }

/-- A path that is defined now. -/
def settle (path : Path) : Build Unit :=
  modify fun d => { d with implied := d.implied.filter (· ≠ path) }

def addKey (path : Path) : Build Unit := modify fun d => { d with keys := path :: d.keys }

/-- Notes whether the value of a path was written as an array. A key with an empty name stands for the table
that it is in. -/
def noteArray (context : Path) (name : String) (isArray : Bool) : Build Unit :=
  let path := if name = "" && context ≠ [] then context else context ++ [name]
  modify fun d =>
    { d with
      arrays :=
        let others := d.arrays.filter (· ≠ path)
        if isArray then path :: others else others }

def tableAt (path : Path) : Build Table := do (Table.at? path (← get).root : Option Table)

def store (context : Path) (name : String) (v : Value) : Build Unit := do
  let d ← get
  let root ← (Table.updateAt? (fun t => some (Table.set t name v)) context d.root : Option Table)
  set { d with root }

/-- Defines a name. A table that is implied stays as it is; an implied array gives way. -/
def define (context : Path) (name : String) (v : Value) : Build Unit := do
  let d ← get
  let path := context ++ [name]
  if (Table.get? (← tableAt context) name).isNone then store context name v
  else if !d.implied.contains path then failure
  else do
    settle path
    if d.arrays.contains path then store context name v

/-- Makes the tables on the way to a path, from the table at `context` on. -/
def enter (context : Path) : Path → Build Unit
  | [] => pure ()
  | name :: names => do
    if (Table.get? (← tableAt context) name).isNone then
      imply (context ++ [name])
      store context name (.table [])
    enter (context ++ [name]) names

/-- Opens the table at a path, or a further table of the array there. -/
def openTable (path : Path) (asItem : Bool) : Build Unit := do
  let context := path.dropLast
  let name := path.getLastD ""
  enter [] context
  if asItem then
    match Table.get? (← tableAt context) name with
    | none => store context name (.tables [[]])
    | some (.tables items) => store context name (.tables (items ++ [[]]))
    | some _ => failure
  else define context name (.table [])

/-- Opens the tables that a key leads through, and gives the path of the last one. -/
def openImplied (context : Path) : Path → Build Path
  | [] => pure context
  | name :: names => do
    let path := context ++ [name]
    imply path
    openTable path false
    openImplied path names

/-- Assigns an expression to a key in the table at `context`; `declare` opens the tables of the expression
as the value of a name. -/
def assignWith (declare : Path → String → Build Unit) (context path : Path) (e : Expression) :
    Build Unit := do
  let context ← openImplied context path.dropLast
  let name := path.getLastD ""
  addKey (context ++ [name])
  declare context name
  define context name (← (e.value? : Option Value))
  let isArray := match e with
    | .array _ => true
    | _ => false
  noteArray context name isArray

mutual

/-- Opens the tables of an expression that is the value of a name, or an item of it, and assigns what they
hold. -/
def declare (isItem : Bool) (context : Path) (name : String) : Expression → Build Unit
  | .scalar _ => pure ()
  | .array items => do
    noteArray context name true
    declareItems context name items
  | .table entries => do
    let path := context ++ [name]
    imply path
    openTable path isItem
    assignAll path entries

def declareItems (context : Path) (name : String) : List Expression → Build Unit
  | [] => pure ()
  | e :: es => do
    declare true context name e
    declareItems context name es

def assignAll (context : Path) : List (Path × Expression) → Build Unit
  | [] => pure ()
  | (path, e) :: es => do
    assignWith (fun context name => declare false context name e) context path e
    assignAll context es

end

/-- The header of a table, or of a further table in an array of tables. -/
def header (path : Path) (asItem : Bool) : Build Unit := do
  openTable path asItem
  noteArray path "" false
  addKey path

/-- Runs statements. Assignments go to the table of the last header, which is at `context`. -/
def run (context : Path) : List Statement → Build Unit
  | [] => pure ()
  | .table path :: ss => do
    header path false
    run path ss
  | .tableItem path :: ss => do
    header path true
    run path ss
  | .assign path e :: ss => do
    assignAll context [(path, e)]
    run context ss

end Build

/-- A table and the paths of the keys and headers that were written. -/
structure Document where
  root : Table
  keys : List Path

def ofStatements? (ss : List Statement) : Option Document :=
  (Build.run [] ss {}).map fun (_, d) => ⟨d.root, d.keys.reverse⟩

/-- The bytes after a byte order mark. -/
def afterMark : List UInt8 → List UInt8
  | 0xff :: 0xfe :: bs => bs
  | 0xfe :: 0xff :: bs => bs
  | 0xef :: 0xbb :: 0xbf :: bs => bs
  | bs => bs

/-- Reads a document. -/
def read? (bs : List UInt8) : Option Document := do
  let s ← String.fromUTF8? ⟨(afterMark bs).toArray⟩
  ofStatements? (← readStatements? s)

end MethodJit.Toml
