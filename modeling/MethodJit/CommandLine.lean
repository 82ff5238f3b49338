import MethodJit.Method.Descriptor
import MethodJit.Recovery
import MethodJit.Settings

/-!
# The command line

The command compiles the methods of files, tells what came of each, and can call one of them. `Options.parse`
reads the arguments and `CommandLine.run` gives what the command prints, for given contents of files.
-/

namespace MethodJit

inductive Flag
  | config
  | dump
  | interp
  | noColor
  | run
deriving DecidableEq, Repr

namespace Flag

/-- The flags in the order of their names. -/
def all : List Flag := [.config, .dump, .interp, .noColor, .run]

def name : Flag → String
  | .config => "config"
  | .dump => "dump"
  | .interp => "interp"
  | .noColor => "no-color"
  | .run => "run"

def description : Flag → String
  | .config => "TOML configuration file"
  | .dump => "print the IR of compiled methods"
  | .interp => "interpret every method"
  | .noColor => "disable colored output"
  | .run => "call the named method without arguments"

/-- Whether the flag has a text for its value. Others are on or off. -/
def takesText : Flag → Bool
  | .config | .run => true
  | _ => false

def ofName? (s : String) : Option Flag := all.find? fun f => f.name = s

def usage (f : Flag) : String :=
  "  -" ++ f.name ++ (if f.takesText then " string" else "") ++ "\n    \t" ++ f.description ++ "\n"

end Flag

def usage : String :=
  "Usage: abcjit [options] file.cbor...\n\nOptions:\n" ++ String.join (Flag.all.map Flag.usage)

/-- Why arguments were refused. -/
inductive FlagFault
  /-- The usage was asked for. -/
  | help
  | badForm (arg : String)
  | unknown (name : String)
  | missingValue (f : Flag)
  | badSwitch (f : Flag) (value : String)
deriving DecidableEq, Repr

def FlagFault.message : FlagFault → String
  | .help => ""
  | .badForm arg => "bad flag syntax: " ++ arg
  | .unknown name => "flag provided but not defined: -" ++ name
  | .missingValue f => "flag needs an argument: -" ++ f.name
  | .badSwitch f value =>
    "invalid boolean value " ++ Text.quote value ++ " for -" ++ f.name ++ ": parse error"

structure Options where
  config : String := ""
  dump : Bool := false
  interp : Bool := false
  noColor : Bool := false
  run : String := ""
  files : List String := []
deriving DecidableEq, Repr

/-- What an argument in front of the files is. -/
inductive Argument
  | file
  /-- What follows are files. -/
  | separator
  | bad
  | flag (name : String) (value : Option String)
deriving DecidableEq, Repr

namespace Argument

/-- A flag without its hyphens. A value can follow after a sign. -/
def ofFlag (cs : List Char) : Argument :=
  match cs with
  | [] | '-' :: _ | '=' :: _ => .bad
  | cs =>
    let value := match cs.dropWhile (· ≠ '=') with
      | [] => none
      | _ :: value => some (String.ofList value)
    .flag (String.ofList (cs.takeWhile (· ≠ '='))) value

def ofString (s : String) : Argument :=
  match s.toList with
  | ['-', '-'] => .separator
  | '-' :: '-' :: cs => ofFlag cs
  | '-' :: c :: cs => ofFlag (c :: cs)
  | _ => .file

end Argument

/-- On or off. -/
def switchOf? (s : String) : Option Bool :=
  if ["1", "t", "T", "TRUE", "true", "True"].contains s then some true
  else if ["0", "f", "F", "FALSE", "false", "False"].contains s then some false
  else none

namespace Options

def setText (o : Options) (f : Flag) (s : String) : Options :=
  match f with
  | .config => { o with config := s }
  | .run => { o with run := s }
  | _ => o

def setSwitch (o : Options) (f : Flag) (b : Bool) : Options :=
  match f with
  | .dump => { o with dump := b }
  | .interp => { o with interp := b }
  | .noColor => { o with noColor := b }
  | _ => o

/-- Reads flags up to the first argument that is none. The value of a flag that has a text can be the next
argument. -/
def parseFrom : List String → Options → Except FlagFault Options
  | [], o => .ok o
  | arg :: args, o =>
    match Argument.ofString arg with
    | .file => .ok { o with files := arg :: args }
    | .separator => .ok { o with files := args }
    | .bad => .error (.badForm arg)
    | .flag name value =>
      match Flag.ofName? name with
      | none => .error (if name = "help" || name = "h" then .help else .unknown name)
      | some f =>
        if f.takesText then
          match value, args with
          | some s, args => parseFrom args (o.setText f s)
          | none, s :: args => parseFrom args (o.setText f s)
          | none, [] => .error (.missingValue f)
        else match value with
          | none => parseFrom args (o.setSwitch f true)
          | some s =>
            match switchOf? s with
            | some b => parseFrom args (o.setSwitch f b)
            | none => .error (.badSwitch f s)

def parse (args : List String) : Except FlagFault Options := parseFrom args {}

/-- The names of the files to be read. -/
def inputs (o : Options) : List String :=
  if o.config = "" then o.files else o.config :: o.files

end Options

/-- The status with which the command exits, and what it prints. -/
structure Outcome where
  exit : Nat
  output : String := ""
  errors : String := ""
deriving DecidableEq, Repr

/-- The contents of files by their names. -/
abbrev Files := String → Option (List UInt8)

namespace CommandLine

def missing (name : String) : String := "open " ++ name ++ ": no such file or directory"

/-- The settings that the options ask for. -/
def settings (files : Files) (o : Options) : Except String Settings := do
  let s ← if o.config = "" then pure {} else
    match files o.config with
    | none => throw (missing o.config)
    | some bs => (Settings.read bs).mapError fun e => o.config ++ ": " ++ e.message
  pure (if o.interp then { s with enabled := false } else s)

/-- The methods of a file. -/
def methodsOf (files : Files) (name : String) : Except String (List Method) :=
  match files name with
  | none => .error (missing name)
  | some bs => (Method.decodeAll bs).mapError fun e => name ++ ": " ++ e.message

/-- Names each method of a list of files by its file. -/
def listing (contents : List (String × List Method)) : List (String × Method) :=
  contents.flatMap fun (file, ms) => ms.map fun m => (file, m)

/-- The line about a method and the text of its function, if that is shown. -/
def describe (shows : Bool) (file : String) (m : Method) : Compiled → String
  | .native f _ =>
    file ++ ": " ++ m.text ++ " compiled\n" ++ if shows then (f.text? .plain).getD "" else ""
  | .interpreted why => file ++ ": " ++ m.text ++ " interpreted: " ++ why.message ++ "\n"

/-- Makes a method a function of the global object, under its own name. -/
def publish (engine i : Nat) (m : Method) : Run Unit := do
  let f ← Run.onHeap (alloc (.function m.name (.method engine i)))
  Run.define engine m.name f

/-- Describes all methods and makes them functions. -/
def describeAll (shows : Bool) (engine : Nat) : Nat → List (String × Method) → Run String
  | _, [] => pure ""
  | i, (file, m) :: ms => do
    let line := describe shows file m (← Run.compile engine i)
    publish engine i m
    pure (line ++ (← describeAll shows engine (i + 1) ms))

/-- The position of the last method with a name. -/
def lastNamed? (name : String) (ms : List (String × Method)) : Option Nat :=
  (ms.zipIdx.filter fun (e, _) => e.2.name = name).getLast?.map Prod.snd

/-- Calls the method with a name. There is an error or the text of the result. -/
def callNamed (fuel depth engine : Nat) (name : String) (ms : List (String × Method)) :
    Run (Except String String) :=
  match lastNamed? name ms with
  | none => pure (.error ("method not found: " ++ name))
  | some i => do
    match ← Run.call fuel depth engine i .undefined [] with
    | .ok v => pure (.ok (← Run.onHeap (textOf v)))
    | .error e => pure (.error (← Run.onHeap e.report))

/-- Compiles methods, describes them and calls the one that the options name. `fault` is an error that was met
when they were read. -/
def session (fuel depth : Nat) (o : Options) (s : Settings) (ms : List (String × Method))
    (fault : Option String) : Run Outcome := do
  let global ← Run.onHeap (newObject none)
  let engine ← Run.newEngine s.engineConfig global
  Run.onHeap (release global)
  (List.range ms.length).forM fun i => do
    let _ ← Run.compile engine i
  let dump := (← Run.world).dump
  match fault with
  | some message => pure { exit := 1, output := dump, errors := message ++ "\n" }
  | none => do
    let output := dump ++ (← describeAll (o.dump && !s.dumps) engine 0 ms)
    if o.run = "" then pure { exit := 0, output }
    else match ← callNamed fuel depth engine o.run ms with
      | .ok text => pure { exit := 0, output := output ++ text ++ "\n" }
      | .error message => pure { exit := 1, output, errors := message ++ "\n" }

/-- Runs the command with options. -/
def runWith (fuel depth : Nat) (files : Files) (o : Options) : Outcome :=
  if o.files = [] then { exit := 2, errors := usage }
  else match settings files o with
    | .error message => { exit := 1, errors := message ++ "\n" }
    | .ok s =>
      let contents := o.files.map fun name => (name, methodsOf files name)
      let ms := listing (contents.filterMap fun (name, r) => r.toOption.map fun ms => (name, ms))
      let fault := contents.findSome? fun (_, r) =>
        match r with
        | .error message => some message
        | .ok _ => none
      let world := World.ofMethods (ms.map Prod.snd).toArray false
      match session fuel depth o s ms fault ⟨{}, world⟩ with
      | .ok r _ => r
      | .error e _ => { exit := 2, errors := e.text ++ "\n" }

/-- Runs the command. -/
def run (fuel depth : Nat) (files : Files) (args : List String) : Outcome :=
  match Options.parse args with
  | .ok o => runWith fuel depth files o
  | .error .help => { exit := 0, errors := usage }
  | .error e => { exit := 2, errors := e.message ++ "\n" ++ usage }

end CommandLine

end MethodJit
